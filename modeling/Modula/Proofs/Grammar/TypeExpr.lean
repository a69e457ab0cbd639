import Modula.Proofs.Grammar.Expr
/-!
# The grammar of types

      type       =  simple
                 |  "ARRAY" simple {"," simple} "OF" type
                 |  "RECORD" entries "END"
                 |  "SET" "OF" simple
                 |  "POINTER" "TO" type
                 |  "PROCEDURE" [formals]
      simple     =  qualident
                 |  "(" ident {"," ident} ")"
                 |  "[" expression ".." expression "]"
      entries    =  entry {";" entry} [";"]
      entry      =  ident {"," ident} ":" type
                 |  "CASE" tag "OF" arm {"|" arm} ["ELSE" entries] "END"
      tag        =  [ident] ":" qualident | qualident
      arm        =  element {"," element} ":" entries
      formals    =  "(" [formal {"," formal}] ")" [":" qualident]
      formal     =  ["VAR"] ["ARRAY" "OF"] qualident

  A list of indexes stands for nested arrays (`nested`).
-/

namespace Modula

open Token.Kind (word symbol)

/-! ## Simple types -/

/-- A named type, an enumeration or a subrange. -/
inductive IsSimpleType : Phrase TypeExpr
  | named {w : List Token.Kind} {name : Qualident} :
    IsQualident w name → IsSimpleType w ⟨0, .named name, .nowhere⟩
  | enumeration {w : List Token.Kind} {names : IdentList} :
    IsIdentList w names →
      IsSimpleType (symbol .openParen :: (w ++ [symbol .closeParen]))
        ⟨0, .enumeration names, .nowhere⟩
  | subrange {u v : List Token.Kind} {low high : Expr} :
    IsExpr u low → IsExpr v high →
      IsSimpleType (symbol .openBracket :: (u ++ symbol .ellipsis :: (v ++ [symbol .closeBracket])))
        ⟨0, .subrange low high, .nowhere⟩

/-- The arrays with these indexes, from the outside, around a type of elements. -/
def nested (indexes : List TypeExpr) (element : TypeExpr) : TypeExpr :=
  indexes.foldr (fun index inner => ⟨0, .array index inner, .nowhere⟩) element

/-! ## Procedure types -/

/-- What may stand in front of the type of a parameter: `["VAR"] ["ARRAY" "OF"]`. -/
def formalMode (isVar isOpenArray : Bool) : List Token.Kind :=
  (if isVar then [word .VAR] else []) ++ (if isOpenArray then [word .ARRAY, word .OF] else [])

/-- `["VAR"] ["ARRAY" "OF"] qualident` -/
inductive IsFormal : Phrase FormalType
  | formal (isVar isOpenArray : Bool) {w : List Token.Kind} {type : Qualident} :
    IsQualident w type →
      IsFormal (formalMode isVar isOpenArray ++ w) ⟨isVar, isOpenArray, type, .nowhere⟩

/-- `[formal {"," formal}]` -/
inductive IsFormalParams : Phrase (List FormalType)
  | none : IsFormalParams [] []
  | some {w : List Token.Kind} {l : List FormalType} :
    Separated (symbol .comma) IsFormal w l → IsFormalParams w l

/-- `[":" qualident]` -/
inductive IsFormalResult : Phrase (Option Qualident)
  | none : IsFormalResult [] none
  | some {w : List Token.Kind} {type : Qualident} :
    IsQualident w type → IsFormalResult (symbol .colon :: w) (some type)

/-- `"(" [formal {"," formal}] ")" [":" qualident]` -/
inductive IsFormals : Phrase FormalTypes
  | formals {u v : List Token.Kind} {params : List FormalType} {result : Option Qualident} :
    IsFormalParams u params → IsFormalResult v result →
      IsFormals (symbol .openParen :: (u ++ symbol .closeParen :: v)) ⟨params, result, .nowhere⟩

/-! ## Types and the entries of records

  Types, entries, arms and the lists of them contain each other, so they are one definition. -/

/-- `[ident] ":" qualident | qualident` -/
inductive IsTag : Phrase (Option Ident × Qualident)
  | unnamed {w : List Token.Kind} {type : Qualident} :
    IsQualident w type → IsTag (symbol .colon :: w) (none, type)
  | named {u w : List Token.Kind} {tag : Ident} {type : Qualident} :
    IsIdent u tag → IsQualident w type → IsTag (u ++ symbol .colon :: w) (some tag, type)
  | typeOnly {w : List Token.Kind} {type : Qualident} : IsQualident w type → IsTag w (none, type)

mutual

/-- A type. -/
inductive IsType : Phrase TypeExpr
  | simple {w : List Token.Kind} {t : TypeExpr} : IsSimpleType w t → IsType w t
  | array {u v : List Token.Kind} {indexes : List TypeExpr} {element : TypeExpr} :
    Separated (symbol .comma) IsSimpleType u indexes → IsType v element →
      IsType (word .ARRAY :: (u ++ word .OF :: v)) (nested indexes element)
  | record {w : List Token.Kind} {entries : List FieldList} :
    IsEntries w entries →
      IsType (word .RECORD :: (w ++ [word .END])) ⟨0, .record entries, .nowhere⟩
  | set {w : List Token.Kind} {base : TypeExpr} :
    IsSimpleType w base → IsType (word .SET :: word .OF :: w) ⟨0, .set base, .nowhere⟩
  | pointer {w : List Token.Kind} {target : TypeExpr} :
    IsType w target → IsType (word .POINTER :: word .TO :: w) ⟨0, .pointer target, .nowhere⟩
  | procedure : IsType [word .PROCEDURE] ⟨0, .procedure none, .nowhere⟩
  | procedureWith {w : List Token.Kind} {formals : FormalTypes} :
    IsFormals w formals →
      IsType (word .PROCEDURE :: w) ⟨0, .procedure (some formals), .nowhere⟩

/-- `entry {";" entry} [";"]` -/
inductive IsEntries : Phrase (List FieldList)
  | one {w : List Token.Kind} {e : FieldList} : IsEntry w e → IsEntries w [e]
  | last {w : List Token.Kind} {e : FieldList} :
    IsEntry w e → IsEntries (w ++ [symbol .semicolon]) [e]
  | more {u v : List Token.Kind} {e : FieldList} {l : List FieldList} :
    IsEntry u e → IsEntries v l → IsEntries (u ++ symbol .semicolon :: v) (e :: l)

/-- A list of fields of one type, or a variant part. -/
inductive IsEntry : Phrase FieldList
  | fields {u v : List Token.Kind} {names : IdentList} {type : TypeExpr} :
    IsIdentList u names → IsType v type →
      IsEntry (u ++ symbol .colon :: v) ⟨.fields names type, .nowhere⟩
  | variants {t u v : List Token.Kind} {tag : Option Ident} {tagType : Qualident}
    {arms : List Variant} {otherwise : Option (List FieldList)} :
    IsTag t (tag, tagType) → Separated (symbol .bar) IsArm u arms → IsOtherwise v otherwise →
      IsEntry (word .CASE :: (t ++ word .OF :: (u ++ (v ++ [word .END]))))
        ⟨.variants tag tagType arms otherwise, .nowhere⟩

/-- `element {"," element} ":" entries` -/
inductive IsArm : Phrase Variant
  | arm {u v : List Token.Kind} {labels : List RangeItem} {entries : List FieldList} :
    Separated (symbol .comma) IsElement u labels → IsEntries v entries →
      IsArm (u ++ symbol .colon :: v) ⟨labels, entries, .nowhere⟩

/-- `["ELSE" entries]` -/
inductive IsOtherwise : Phrase (Option (List FieldList))
  | none : IsOtherwise [] none
  | some {w : List Token.Kind} {entries : List FieldList} :
    IsEntries w entries → IsOtherwise (word .ELSE :: w) (some entries)

end

/-! ## Entries after the first

  The parser reads an entry and then asks for a semicolon.  The grammar is brought into this form. -/

/-- `{";" entry} [";"]` -/
def FurtherEntries : Phrase (List FieldList) := fun w l =>
  (w = [] ∧ l = []) ∨ (w = [symbol .semicolon] ∧ l = []) ∨
    ∃ v, w = symbol .semicolon :: v ∧ IsEntries v l

/-- The first entry, and what stands behind it. -/
theorem isEntries_cons_iff {w : List Token.Kind} {e : FieldList} {l : List FieldList} :
    IsEntries w (e :: l) ↔ ∃ u v, w = u ++ v ∧ IsEntry u e ∧ FurtherEntries v l := by
  constructor
  · intro h
    cases h with
    | one hu => exact ⟨w, [], (List.append_nil w).symm, hu, Or.inl ⟨rfl, rfl⟩⟩
    | last hu => exact ⟨_, _, rfl, hu, Or.inr (Or.inl ⟨rfl, rfl⟩)⟩
    | more hu hl => exact ⟨_, _, rfl, hu, Or.inr (Or.inr ⟨_, rfl, hl⟩)⟩
  · rintro ⟨u, v, rfl, hu, ⟨rfl, rfl⟩ | ⟨rfl, rfl⟩ | ⟨v, rfl, hl⟩⟩
    · rw [List.append_nil]
      exact .one hu
    · exact .last hu
    · exact .more hu hl

/-! ## First tokens

  What a phrase begins with is what the parser decides by. -/

/-- Whether a simple type may begin with the token. -/
def Token.Kind.beginsSimpleType : Token.Kind → Bool
  | .name _ | symbol .openParen | symbol .openBracket => true
  | _ => false

/-- With a name, a parenthesis or a bracket. -/
theorem isSimpleType_begins : Begins (fun k => k.beginsSimpleType = true) IsSimpleType := by
  intro w t hw
  cases hw with
  | named hw =>
    obtain ⟨k, v, rfl, hk⟩ := isQualident_begins hw
    refine ⟨k, v, rfl, ?_⟩
    cases k <;> first | rfl | cases hk
  | enumeration _ => exact ⟨_, _, rfl, rfl⟩
  | subrange _ _ => exact ⟨_, _, rfl, rfl⟩

/-- Whether a type may begin with the token. -/
def Token.Kind.beginsType (k : Token.Kind) : Bool :=
  match k with
  | word .ARRAY | word .RECORD | word .SET | word .POINTER | word .PROCEDURE => true
  | _ => k.beginsSimpleType

/-- With one of the words, or as a simple type begins. -/
theorem isType_begins : Begins (fun k => k.beginsType = true) IsType := by
  intro w t hw
  cases hw with
  | simple hw =>
    obtain ⟨k, v, rfl, hk⟩ := isSimpleType_begins hw
    refine ⟨k, v, rfl, ?_⟩
    cases k with
    | word k => cases hk
    | _ => exact hk
  | array _ _ => exact ⟨_, _, rfl, rfl⟩
  | record _ => exact ⟨_, _, rfl, rfl⟩
  | set _ => exact ⟨_, _, rfl, rfl⟩
  | pointer _ => exact ⟨_, _, rfl, rfl⟩
  | procedure => exact ⟨_, _, rfl, rfl⟩
  | procedureWith _ => exact ⟨_, _, rfl, rfl⟩

/-- No formal type begins with the parenthesis that ends the list of them. -/
theorem isFormal_begins : Begins (· ≠ symbol .closeParen) IsFormal := by
  intro w p hw
  cases hw with
  | formal isVar isOpenArray hw =>
    obtain ⟨k, v, rfl, hk⟩ := isQualident_begins hw
    have hne : k ≠ symbol .closeParen := by
      rintro rfl
      cases hk
    cases isVar
    · cases isOpenArray
      · exact ⟨k, v, rfl, hne⟩
      · exact ⟨_, _, rfl, nofun⟩
    · exact ⟨_, _, rfl, nofun⟩

/-- An entry does not begin like a declaration: no equals sign stands behind its first name. -/
theorem isEntry_begins {w : List Token.Kind} {e : FieldList} (hw : IsEntry w e) :
    (∃ v, w = word .CASE :: v) ∨
      ∃ text k v, w = .name text :: k :: v ∧ k ≠ symbol .equal := by
  cases hw with
  | variants _ _ _ => exact Or.inl ⟨_, rfl⟩
  | fields hu _ =>
    refine Or.inr ?_
    cases hu with
    | idents hu =>
      cases hu with
      | one hi =>
        cases hi with
        | name text => exact ⟨text, _, _, rfl, nofun⟩
      | more hi _ =>
        cases hi with
        | name text => exact ⟨text, _, _, rfl, nofun⟩

/-- Entries begin with `CASE`, or with a name that is no declaration. -/
theorem isEntries_begins {w : List Token.Kind} {l : List FieldList} (hw : IsEntries w l) :
    (∃ v, w = word .CASE :: v) ∨
      ∃ text k v, w = .name text :: k :: v ∧ k ≠ symbol .equal := by
  have extend : ∀ {u : List Token.Kind} {e : FieldList} (v : List Token.Kind), IsEntry u e →
      (∃ v', u ++ v = word .CASE :: v') ∨
        ∃ text k v', u ++ v = .name text :: k :: v' ∧ k ≠ symbol .equal := by
    intro u e v hu
    rcases isEntry_begins hu with ⟨u, rfl⟩ | ⟨text, k, u, rfl, hk⟩
    · exact Or.inl ⟨u ++ v, rfl⟩
    · exact Or.inr ⟨text, k, u ++ v, rfl, hk⟩
  cases hw with
  | one hu => exact isEntry_begins hu
  | last hu => exact extend _ hu
  | more hu _ => exact extend _ hu

/-! ## Following tokens

  What may follow a phrase is what its parser stops at. -/

/-- A token that is never part of the type before it. -/
def EndsType (k : Token.Kind) : Prop :=
  k ≠ symbol .period ∧ k ≠ symbol .openParen ∧ k ≠ symbol .colon

/-- A token that comes behind the entries of a record, of an arm or of an `ELSE` part. -/
def EndsEntries (k : Token.Kind) : Prop := k = word .END ∨ k = symbol .bar ∨ k = word .ELSE

instance : DecidablePred EndsType := fun k =>
  inferInstanceAs (Decidable (k ≠ symbol .period ∧ k ≠ symbol .openParen ∧ k ≠ symbol .colon))

instance : DecidablePred EndsEntries := fun k =>
  inferInstanceAs (Decidable (k = word .END ∨ k = symbol .bar ∨ k = word .ELSE))

end Modula

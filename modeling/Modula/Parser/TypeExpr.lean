import Modula.Parser.Expr
import Modula.Tree.TypeExpr
/-!
# Reading types

      type       =  simple
                 |  "ARRAY" simple {"," simple} "OF" type
                 |  "RECORD" entries "END"
                 |  "SET" "OF" simple
                 |  "POINTER" "TO" type
                 |  "PROCEDURE" [formals]
      simple     =  qualident
                 |  "(" ident {"," ident} ")"
                 |  "[" expression ".." expression "]"
      entries    =  entry {";" entry} [";"]
      entry      =  ident {"," ident} ":" type
                 |  "CASE" tag "OF" arm {"|" arm} ["ELSE" entries] "END"
      tag        =  [ident] ":" qualident | qualident
      arm        =  label {"," label} ":" entries
      label      =  expression [".." expression]
      formals    =  "(" [formal {"," formal}] ")" [":" qualident]
      formal     =  ["VAR"] ["ARRAY" "OF"] qualident

  Types and entries of records contain each other.  As with expressions, both are written over readers
  of what is inside them, and the knot is tied last, on a budget (`typeAt`, `entryAt`).

  The entries of a record also end where a declaration begins.  Then the record was never closed, and
  its opening token is what the error is about.
-/

namespace Modula

/-- Whether a declaration, or a section of declarations, begins at the cursor. -/
def Cursor.beginsDeclaration (c : Cursor) : Bool :=
  match c.kind with
  | .name _ => c.kindAfter == .symbol .equal
  | .word .CONST | .word .TYPE | .word .VAR | .word .PROCEDURE | .word .BEGIN => true
  | _ => false

/-- Whether no entry of a record follows at the cursor. -/
def Cursor.endsEntries (c : Cursor) : Bool :=
  match c.kind with
  | .word .END | .symbol .bar | .word .ELSE | .eof => true
  | _ => c.beginsDeclaration

namespace Parser

/-! ## Simple types -/

/-- The node of a type that begins at `start` and has just been read. -/
def typeNode (kind : TypeKind) (start : Nat) : Parser TypeExpr := do
  let id ← freshId
  return ⟨id, kind, ⟨start, ← lastEnd⟩⟩

/-- `"(" ident {"," ident} ")"` -/
def enumeration : Parser TypeKind := within .enumeration do
  let opener ← advance
  let names ← identList
  close .enumeration opener
  return .enumeration names

/-- `"[" expression ".." expression "]"` -/
def subrange : Parser TypeKind := within .subrangeType do
  let opener ← advance
  let low ← expr
  let _ ← expect (.symbol .ellipsis)
  let high ← expr
  close .subrange opener
  return .subrange low high

/-- A named type, an enumeration or a subrange. -/
def simpleType : Parser TypeExpr := do
  let start := (← get).token.span.start
  match ← kind with
  | .name _ => typeNode (.named (← qualident)) start
  | .symbol .openParen => typeNode (← enumeration) start
  | .symbol .openBracket => typeNode (← subrange) start
  | _ => fail .expectedType

/-! ## Procedure types -/

/-- `["VAR"] ["ARRAY" "OF"] qualident` -/
def formal : Parser FormalType := do
  let start := (← get).token.span.start
  let isVar ← accept (.word .VAR)
  let isOpenArray ← accept (.word .ARRAY)
  if isOpenArray then
    let _ ← expect (.word .OF)
  let type ← qualident
  return ⟨isVar, isOpenArray, type, ⟨start, ← lastEnd⟩⟩

/-- The parameters of a procedure type, up to the closing parenthesis. -/
def formalParams : Parser (List FormalType) := do
  if (← kind) = Bracket.formalParameters.closer then return []
  else
    let (first, more) ← sepBy (.symbol .comma) formal
    return first :: more

/-- `":" qualident`, or nothing. -/
def formalResult : Parser (Option Qualident) := do
  if ← accept (.symbol .colon) then return some (← qualident) else return none

/-- `"(" [formal {"," formal}] ")" [":" qualident]` -/
def formals : Parser FormalTypes := within .formalParameterList do
  let opener ← expect Bracket.formalParameters.opener
  let params ← formalParams
  close .formalParameters opener
  let result ← formalResult
  return ⟨params, result, ⟨opener.span.start, ← lastEnd⟩⟩

/-- `"PROCEDURE" [formals]` -/
def procedureType : Parser TypeExpr := within .procedureType do
  let head ← expect (.word .PROCEDURE)
  if (← kind) = Bracket.formalParameters.opener then
    typeNode (.procedure (some (← formals))) head.span.start
  else typeNode (.procedure none) head.span.start

/-! ## Array, set and pointer types -/

/-- The array with this index and this type of elements. -/
def arrayNode (start : Nat) (index element : TypeExpr) : Parser TypeExpr := do
  let id ← freshId
  return ⟨id, .array index element, ⟨start, element.span.stop⟩⟩

/-- The nested arrays that a list of indexes stands for, each beginning at its own index. -/
def nestedArrays : List TypeExpr → TypeExpr → Parser TypeExpr
  | [], element => return element
  | index :: more, element => do
    let inner ← nestedArrays more element
    arrayNode index.span.start index inner

/-- `"ARRAY" simple {"," simple} "OF" type` -/
def arrayTypeWith (type : Parser TypeExpr) : Parser TypeExpr := within .arrayType do
  let head ← expect (.word .ARRAY)
  let (index, more) ← sepBy (.symbol .comma) simpleType
  let _ ← expect (.word .OF)
  let element ← type
  let inner ← nestedArrays more element
  arrayNode head.span.start index inner

/-- `"SET" "OF" simple` -/
def setType : Parser TypeExpr := within .setType do
  let head ← expect (.word .SET)
  let _ ← expect (.word .OF)
  let base ← simpleType
  let id ← freshId
  return ⟨id, .set base, ⟨head.span.start, base.span.stop⟩⟩

/-- `"POINTER" "TO" type` -/
def pointerTypeWith (type : Parser TypeExpr) : Parser TypeExpr := within .pointerType do
  let head ← expect (.word .POINTER)
  let _ ← expect (.word .TO)
  let target ← type
  let id ← freshId
  return ⟨id, .pointer target, ⟨head.span.start, target.span.stop⟩⟩

/-! ## Records -/

/-- Further entries, each with a semicolon in front of it, and perhaps a last semicolon. -/
def moreEntries (entry : Parser FieldList) : (budget : Nat) → Parser (List FieldList)
  | 0 => return []
  | budget + 1 => do
    if ← accept (.symbol .semicolon) then
      -- a last semicolon, or the beginning of a declaration after a record that was not closed
      if (← get).endsEntries then return []
      else
        let e ← entry
        let more ← moreEntries entry budget
        return e :: more
    else return []

/-- `entry {";" entry} [";"]` -/
def entriesWith (entry : Parser FieldList) : Parser (List FieldList) := do
  let first ← entry
  let more ← moreEntries entry (← remaining)
  return first :: more

/-- `"RECORD" entries "END"` -/
def recordTypeWith (entry : Parser FieldList) : Parser TypeExpr := within .recordType do
  let opener ← expect Bracket.record.opener
  let entries ← entriesWith entry
  close .record opener
  typeNode (.record entries) opener.span.start

/-- `[ident] ":" qualident | qualident` -/
def tag : Parser (Option Ident × Qualident) := do
  if ← accept (.symbol .colon) then return (none, ← qualident)
  else
    let before ← get
    let first ← qualident
    -- only the colon tells a tag field from a type without one
    if ← accept (.symbol .colon) then
      if first.isQualified then failAt before .qualifiedTag
      else return (some first.name, ← qualident)
    else return (none, first)

/-- `label {"," label} ":" entries` -/
def armWith (entry : Parser FieldList) : Parser Variant := do
  let start := (← get).token.span.start
  let (label, more) ← sepBy (.symbol .comma) rangeItem
  let _ ← expect (.symbol .colon)
  let entries ← entriesWith entry
  return ⟨label :: more, entries, ⟨start, ← lastEnd⟩⟩

/-- `"ELSE" entries`, or nothing. -/
def otherwiseWith (entry : Parser FieldList) : Parser (Option (List FieldList)) := do
  if ← accept (.word .ELSE) then return some (← entriesWith entry) else return none

/-- `"CASE" tag "OF" arm {"|" arm} ["ELSE" entries] "END"` -/
def variantPartWith (entry : Parser FieldList) : Parser FieldList := within .variantPart do
  let opener ← expect Bracket.variantPart.opener
  let (tag, tagType) ← tag
  let _ ← expect (.word .OF)
  let (arm, more) ← sepBy (.symbol .bar) (armWith entry)
  let otherwise ← otherwiseWith entry
  close .variantPart opener
  return ⟨.variants tag tagType (arm :: more) otherwise, ⟨opener.span.start, ← lastEnd⟩⟩

/-- `ident {"," ident} ":" type` -/
def fieldsWith (type : Parser TypeExpr) : Parser FieldList := do
  let names ← identList
  let _ ← expect (.symbol .colon)
  let type ← type
  return ⟨.fields names type, names.span.join type.span⟩

/-! ## Types -/

/-- A type, given readers of the types and entries inside it. -/
def typeWith (type : Parser TypeExpr) (entry : Parser FieldList) : Parser TypeExpr := do
  match ← kind with
  | .word .ARRAY => arrayTypeWith type
  | .word .RECORD => recordTypeWith entry
  | .word .SET => setType
  | .word .POINTER => pointerTypeWith type
  | .word .PROCEDURE => procedureType
  | _ => simpleType

/-- An entry of a record, given readers of the types and entries inside it. -/
def entryWith (type : Parser TypeExpr) (entry : Parser FieldList) : Parser FieldList := do
  if (← kind) = Bracket.variantPart.opener then variantPartWith entry else fieldsWith type

mutual

/-- A type that is nested no deeper than a budget. -/
def typeAt : (budget : Nat) → Parser TypeExpr
  | 0 => fail .expectedType
  | budget + 1 => typeWith (typeAt budget) (entryAt budget)

/-- An entry that is nested no deeper than a budget. -/
def entryAt : (budget : Nat) → Parser FieldList
  | 0 => fail (.expected .name)
  | budget + 1 => entryWith (typeAt budget) (entryAt budget)

end

/-- A type. -/
def type : Parser TypeExpr := do
  let budget ← remaining
  typeAt budget

end Parser

end Modula

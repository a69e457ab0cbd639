/-!
# Reserved words

  The words that no name may use.  They are written in capitals, and matching is exact:
  `Keyword.ofSpelling?` is the inverse of `Keyword.spelling` and knows no other words.
-/

namespace Modula

/-- A reserved word. -/
inductive Keyword where
  | MODULE | DEFINITION | IMPLEMENTATION | IMPORT | FROM
  | CONST | TYPE | ARRAY | RECORD | SET | POINTER | PROCEDURE
  | CASE | ELSE | OF | TO
  | IN | OR | AND | DIV | MOD | NOT
  | VAR | BEGIN | END
deriving DecidableEq, Repr

namespace Keyword

/-- Every reserved word: the words of modules, of types, of variants, of operators, and the rest. -/
def all : List Keyword :=
  [.MODULE, .DEFINITION, .IMPLEMENTATION, .IMPORT, .FROM,
   .CONST, .TYPE, .ARRAY, .RECORD, .SET, .POINTER, .PROCEDURE,
   .CASE, .ELSE, .OF, .TO,
   .IN, .OR, .AND, .DIV, .MOD, .NOT,
   .VAR, .BEGIN, .END]

/-- How the word is written. -/
def spelling : Keyword → String
  | .MODULE => "MODULE"
  | .DEFINITION => "DEFINITION"
  | .IMPLEMENTATION => "IMPLEMENTATION"
  | .IMPORT => "IMPORT"
  | .FROM => "FROM"
  | .CONST => "CONST"
  | .TYPE => "TYPE"
  | .ARRAY => "ARRAY"
  | .RECORD => "RECORD"
  | .SET => "SET"
  | .POINTER => "POINTER"
  | .PROCEDURE => "PROCEDURE"
  | .CASE => "CASE"
  | .ELSE => "ELSE"
  | .OF => "OF"
  | .TO => "TO"
  | .IN => "IN"
  | .OR => "OR"
  | .AND => "AND"
  | .DIV => "DIV"
  | .MOD => "MOD"
  | .NOT => "NOT"
  | .VAR => "VAR"
  | .BEGIN => "BEGIN"
  | .END => "END"

/-- The reserved word with this spelling, if there is one. -/
def ofSpelling? (text : String) : Option Keyword := all.find? (fun k => k.spelling == text)

/-- The place of the word in `all`. -/
def index (k : Keyword) : Nat := all.idxOf k

/-- The list leaves out no word. -/
theorem mem_all (k : Keyword) : k ∈ all := by cases k <;> decide

/-- A reserved word is found by its spelling. -/
@[simp] theorem ofSpelling?_spelling (k : Keyword) : ofSpelling? k.spelling = some k := by
  cases k <;> decide

/-- Only its own spelling finds a reserved word. -/
theorem spelling_of_ofSpelling? {text : String} {k : Keyword} (h : ofSpelling? text = some k) :
    k.spelling = text := by
  simpa using List.find?_some h

end Keyword

end Modula

import Modula.Lexer
import Modula.Report
import Modula.Proofs.Numbering.Determined
import Modula.Proofs.Numbering.TypeExpr
import Modula.Proofs.Reading.TypeExpr
import Modula.Proofs.Written.Expr
/-!
# Lists of indexes

  An array may be given several indexes at once.  This is short for arrays of arrays:

      ARRAY i, j, k OF t     =     ARRAY i OF ARRAY j OF ARRAY k OF t

  The two ways to write it give the same tree, and not only in what it says: its nodes have the same ids,
  and the same ids are left over (`readType_indexList`).  The parser makes the tree in different ways.
  For a list it reads all indexes first and then makes the arrays, the innermost first; the spelled out
  form is read by recursion, and an array is made when the one inside it is there.

  The two trees have the same bare form, since both sentences derive it (`exists_nested`), and both are
  numbered in post-order.  That leaves only the spans to differ.
-/

namespace Modula

open Token.Kind (word symbol)

/-- `"ARRAY" index {"," index} "OF" element` -/
def indexList (indexes : List (List Token.Kind)) (element : List Token.Kind) : List Token.Kind :=
  word .ARRAY :: (separatedBy (symbol .comma) indexes ++ word .OF :: element)

/-- `{"ARRAY" index "OF"} element` -/
def arraysOfArrays (indexes : List (List Token.Kind)) (element : List Token.Kind) : List Token.Kind :=
  indexes.foldr (fun index inner => word .ARRAY :: (index ++ word .OF :: inner)) element

/-- Both ways to write arrays within each other stand for the same bare tree. -/
theorem exists_nested {indexes : List (List Token.Kind)} {element : List Token.Kind} {t : TypeExpr}
    (hne : indexes ≠ []) (hindexes : ∀ w ∈ indexes, ∃ index, IsSimpleType w index)
    (helement : IsType element t) :
    ∃ tree, IsType (indexList indexes element) tree ∧ IsType (arraysOfArrays indexes element) tree := by
  -- Both ways to write it derive one array for each index, nested from the left to the right.
  suffices hall : ∃ trees, Separated (symbol .comma) IsSimpleType
      (separatedBy (symbol .comma) indexes) trees ∧
        IsType (arraysOfArrays indexes element) (nested trees t) by
    obtain ⟨trees, htrees, hnested⟩ := hall
    exact ⟨nested trees t, .array htrees helement, hnested⟩
  induction indexes with
  | nil => exact absurd rfl hne
  | cons w ws ih =>
    obtain ⟨index, hindex⟩ := hindexes w List.mem_cons_self
    cases ws with
    | nil =>
      rw [separatedBy_singleton]
      exact ⟨[index], .one hindex, .array (.one hindex) helement⟩
    | cons w' ws =>
      obtain ⟨trees, htrees, hnested⟩ :=
        ih (List.cons_ne_nil _ _) fun v hv => hindexes v (List.mem_cons_of_mem w hv)
      have harray : IsType (arraysOfArrays (w :: w' :: ws) element) (nested [index] (nested trees t)) :=
        .array (.one hindex) hnested
      rw [separatedBy_cons]
      exact ⟨index :: trees, .more hindex htrees, harray⟩

/-- A type in front of a token that continues none is read, and its ids are those that are drawn. -/
theorem Cursor.exists_readType {c : Cursor} {w rest : List Token.Kind} {tree : TypeExpr}
    (hw : IsType w tree) (hc : c.kinds = w ++ rest) (hrest : EndsType (upcoming rest)) :
    ∃ t d, c.readType = (.ok t, d) ∧ t.relabel .forget = tree ∧ d.kinds = rest ∧
      Consecutive c.nextId t.ids d.nextId := by
  obtain ⟨t, d, hrun, htree, hd⟩ :=
    Parser.type_readsAll w.length .compilationUnit hc hw (Nat.le_refl _) hrest
  refine ⟨t, d, ?_, htree, hd, Parser.type_draws.consecutive hrun⟩
  rw [readType, hrun]

/-- A list of indexes and arrays of arrays give trees that differ in nothing but their spans, and they
leave the same next id. -/
theorem readType_indexList {indexes : List (List Token.Kind)} {element rest rest' : List Token.Kind}
    {c c' : Cursor} (hne : indexes ≠ []) (hindexes : ∀ w ∈ indexes, ∃ index, IsSimpleType w index)
    (helement : ∃ t, IsType element t) (hc : c.kinds = indexList indexes element ++ rest)
    (hc' : c'.kinds = arraysOfArrays indexes element ++ rest') (hnext : upcoming rest = upcoming rest')
    (hends : upcoming rest = symbol .semicolon ∨ upcoming rest = .eof) (hid : c.nextId = c'.nextId) :
    ∃ t t' d d', c.readType = (.ok t, d) ∧ c'.readType = (.ok t', d') ∧ d.nextId = d'.nextId ∧
      t.relabel .unplaced = t'.relabel .unplaced ∧ d.kinds = rest ∧ d'.kinds = rest' := by
  obtain ⟨element', helement⟩ := helement
  obtain ⟨tree, hlist, harrays⟩ := exists_nested hne hindexes helement
  -- What follows ends a type, as it is a semicolon or the end.
  have hrest : EndsType (upcoming rest) := by
    rcases hends with h | h <;> rw [h] <;> decide
  obtain ⟨t, d, hread, htree, hd, hids⟩ := Cursor.exists_readType hlist hc hrest
  obtain ⟨t', d', hread', htree', hd', hids'⟩ := Cursor.exists_readType harrays hc' (hnext ▸ hrest)
  obtain ⟨hunplaced, hnextId⟩ :=
    t.recovered.of_consecutive (htree.trans htree'.symm) hids (hid ▸ hids')
  exact ⟨t, t', d, d', hread, hread', hnextId, hunplaced, hd, hd'⟩

/-- A subrange and a name as indexes; 5 is the next id. -/
def atIndexList : Cursor :=
  { Cursor.ofTokens (tokenize "ARRAY [1..2], CHAR OF CHAR; c = 3;").tokens with nextId := 5 }

/-- The same arrays spelled out, where less of a source follows. -/
def atArraysOfArrays : Cursor :=
  { Cursor.ofTokens (tokenize "ARRAY [1..2] OF ARRAY CHAR OF CHAR; END").tokens with nextId := 5 }

theorem readType_indexList_subrange : ∃ t t' d d', atIndexList.readType = (.ok t, d) ∧
    atArraysOfArrays.readType = (.ok t', d') ∧ d.nextId = d'.nextId ∧
      t.relabel .unplaced = t'.relabel .unplaced ∧ d.kinds = atIndexList.kinds.drop 10 ∧
        d'.kinds = atArraysOfArrays.kinds.drop 11 := by
  let one : Token.Kind := .integer ⟨.decimal, "1"⟩
  let two : Token.Kind := .integer ⟨.decimal, "2"⟩
  let bounds : List Token.Kind := [symbol .openBracket, one, symbol .ellipsis, two, symbol .closeBracket]
  have hname : ∀ text, ∃ t, IsSimpleType [.name text] t :=
    fun text => ⟨_, .named (.parts (.one (.name text)))⟩
  have hbounds : ∃ t, IsSimpleType bounds t :=
    ⟨_, .subrange (IsFactor.integer ⟨.decimal, "1"⟩).isExpr (IsFactor.integer ⟨.decimal, "2"⟩).isExpr⟩
  obtain ⟨element, helement⟩ := hname "CHAR"
  have hindexes : ∀ w ∈ [bounds, [.name "CHAR"]], ∃ t, IsSimpleType w t :=
    List.forall_mem_cons.2 ⟨hbounds, List.forall_mem_singleton.2 (hname "CHAR")⟩
  exact readType_indexList (List.cons_ne_nil _ _) hindexes ⟨element, .simple helement⟩
    (by decide +kernel) (by decide +kernel) (by decide +kernel) (by decide +kernel) rfl

end Modula

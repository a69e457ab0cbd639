import Modula.Parser.Item
import Modula.Proofs.Recovery.Skip
/-!
# Sources with faults

  A source with faults is described together with the source that it would be without them.  Where the
  one has a fault, the other has nothing; everything else they have in common.  Three kinds of faults are
  described so:

  * a broken import among the imports;
  * a broken declaration in a section of declarations;
  * a section of variables among the sections, which is sound as such and not supported.

  Broken phrases are what their parsers reject, whatever is wrong with them.  All that is asked of them
  is that they look like one phrase to the skip that reading goes on with: they begin as such a phrase
  does, and the first semicolon outside of brackets is their last token (`IsBroken`).

  A relation between the source without faults, the source with them and the list of faults is a
  `Spoiling`.  It may depend on what comes behind, since a parser may look there.  `Pieces` puts them one
  behind the other, and `Spoiled` is the one of compilation units.
-/

namespace Modula

open Token.Kind (word symbol)

/-! ## Faults and their errors

  A fault is told without the parser: by tokens and by where they stand.  What the error about it must be
  is told by the fault. -/

/-- What is wrong at one place of a source. -/
inductive Fault where
  /-- A broken import or declaration, and the tokens behind it. -/
  | phrase (tokens behind : List Token)
  /-- A section of variables, told by its `VAR` and the tokens behind that. -/
  | unsupported (head : Token) (behind : List Token)

/-- The error is about one of these tokens, with the others behind them. -/
def SyntaxError.LiesOn (e : SyntaxError) (tokens behind : List Token) : Prop :=
  ∃ u t v, tokens = u ++ t :: v ∧ e.token = t ∧ e.remaining = (t :: (v ++ behind)).length

/-- That variables are not supported, at this `VAR`. -/
def SyntaxError.ofVariables (head : Token) (behind : List Token) : SyntaxError :=
  ⟨.notSupported .variableDeclarations, head, (head :: behind).length, .compilationUnit⟩

/-- The error is about the fault. -/
def SyntaxError.IsAbout (e : SyntaxError) : Fault → Prop
  | .phrase tokens behind => e.LiesOn tokens behind
  | .unsupported head behind => e = .ofVariables head behind

/-! ## Sequences of pieces

  A spoiled source is put together piece by piece.  A piece is what stands there, and what would stand
  there without the faults in it. -/

/-- What stands in a source in front of other tokens, instead of what would stand there, and with which
faults: `spoiling behind good all faults`. -/
abbrev Spoiling := (behind good all : List Token) → List Fault → Prop

/-- Any number of pieces. -/
inductive Pieces (piece : Spoiling) (behind : List Token) : List Token → List Token → List Fault → Prop
  | none : Pieces piece behind [] [] []
  | more {g a good all : List Token} {fs faults : List Fault} : piece (all ++ behind) g a fs →
    Pieces piece behind good all faults →
      Pieces piece behind (g ++ good) (a ++ all) (fs ++ faults)

theorem Pieces.one {piece : Spoiling} {behind g a : List Token} {fs : List Fault}
    (h : piece behind g a fs) : Pieces piece behind g a fs := by
  have hpieces := @Pieces.more piece behind g a [] [] fs [] h .none
  simpa only [List.append_nil] using hpieces

/-! ## Broken phrases

  What makes a phrase broken is that its parser fails on it.  The other conditions say that the skip
  behind the error ends with the phrase. -/

/-- From a token that such a phrase may begin with to a semicolon, with such tokens between them, and
rejected by the parser, which stops at such a place. -/
structure IsBroken {α : Type} (starts : Token.Kind → Prop) (body : List Token.Kind → Prop)
    (construct : Construct) (item : Parser α) (stops : Cursor → Prop) (behind tokens : List Token) :
    Prop where
  shape : ∃ head inner last, tokens = head :: (inner ++ [last]) ∧ starts head.kind ∧
    body (inner.map Token.kind) ∧ last.kind = symbol .semicolon
  rejected : ∀ c : Cursor, c.rest = tokens ++ behind →
    ∃ e c', item construct c = .error e c' ∧ stops c'

/-- A broken import.  No token between its ends lets the skip end early. -/
abbrev IsBrokenImport : (behind tokens : List Token) → Prop :=
  IsBroken (fun k => k = word .IMPORT ∨ k = word .FROM)
    (fun ks => ∀ k ∈ ks, k.endsBrokenImport = false) .importClause Parser.importClause fun _ => True

/-- A broken declaration.  Its brackets match as far as the skip counts them, and where its parser stops
no other declaration begins. -/
abbrev IsBrokenItem {α : Type} (construct : Construct) (item : Parser α) :
    (behind tokens : List Token) → Prop :=
  IsBroken (fun k => k.isName = true) (fun ks => depthBehind 0 ks = some 0) construct item
    fun c => c.beginsDeclaration = false

/-- A sound phrase, or a broken one that is there in addition. -/
inductive TriedPiece {α : Type} (phrase : Phrase α) (broken : (behind tokens : List Token) → Prop) :
    Spoiling
  | sound {behind w : List Token} {a : α} : phrase (w.map Token.kind) a →
    TriedPiece phrase broken behind w w []
  | broken {behind w : List Token} : broken behind w →
    TriedPiece phrase broken behind [] w [.phrase w behind]

/-! ## Sections

  A section of variables is one fault as a whole.  The exception is a variable parameter, where the skip
  ends within the section. -/

/-- `ident {"," ident} ":" type ";"`, where no parameter of the type is a variable one. -/
inductive IsVariable : Phrase (IdentList × TypeExpr)
  | declared {u v : List Token.Kind} {names : IdentList} {type : TypeExpr} :
    IsIdentList u names → IsType v type → word .VAR ∉ v →
      IsVariable (u ++ symbol .colon :: (v ++ [symbol .semicolon])) (names, type)

/-- A section of declarations, of which some are broken, or a section of variables. -/
inductive SectionPiece : Spoiling
  | constants {behind good all : List Token} {faults : List Fault} {head : Token} :
    head.kind = word .CONST →
    Pieces (TriedPiece IsConstItem (IsBrokenItem .constDeclaration Parser.constItem)) behind
      good all faults →
      SectionPiece behind (head :: good) (head :: all) faults
  | types {behind good all : List Token} {faults : List Fault} {head : Token} :
    head.kind = word .TYPE →
    Pieces (TriedPiece IsTypeItem (IsBrokenItem .typeDeclaration Parser.typeItem)) behind
      good all faults →
      SectionPiece behind (head :: good) (head :: all) faults
  | unsupported {behind w : List Token} {l : List (IdentList × TypeExpr)} {head : Token} :
    head.kind = word .VAR → Repeated IsVariable (w.map Token.kind) l →
      SectionPiece behind [] (head :: w) [.unsupported head (w ++ behind)]

/-! ## Compilation units

  The pieces of a unit are its header, the imports, the sections, the statements and the footer. -/

/-- The second list of tokens is the first one, a compilation unit, with these faults put into it. -/
inductive Spoiled : (good all : List Token) → List Fault → Prop
  | definition {h gi i gs s f : List Token} {fi fs : List Fault} {name foot : Ident} :
    IsDefinitionHeader (h.map Token.kind) name →
    Pieces (TriedPiece IsImport IsBrokenImport) (s ++ f) gi i fi → Pieces SectionPiece f gs s fs →
    IsFooter (f.map Token.kind) foot →
      Spoiled (h ++ (gi ++ (gs ++ f))) (h ++ (i ++ (s ++ f))) (fi ++ fs)
  | program {h gi i gs s b f : List Token} {fi fs : List Fault} {header : Bool × Ident} {foot : Ident}
    {body : Option Span} :
    IsProgramHeader (h.map Token.kind) header →
    Pieces (TriedPiece IsImport IsBrokenImport) (s ++ (b ++ f)) gi i fi →
    Pieces SectionPiece (b ++ f) gs s fs → IsBody (b.map Token.kind) body →
    IsFooter (f.map Token.kind) foot →
      Spoiled (h ++ (gi ++ (gs ++ (b ++ f)))) (h ++ (i ++ (s ++ (b ++ f)))) (fi ++ fs)

/-! ## The source without faults -/

section

variable {α : Type} {phrase : Phrase α} {broken : (behind tokens : List Token) → Prop}
  {behind good all w : List Token} {faults : List Fault}

theorem Pieces.repeated (h : Pieces (TriedPiece phrase broken) behind good all faults) :
    ∃ l, Repeated phrase (good.map Token.kind) l := by
  induction h with
  | none => exact ⟨[], .none⟩
  | more hp _ ih =>
    obtain ⟨l, hl⟩ := ih
    cases hp with
    | sound ha =>
      rw [List.map_append]
      exact ⟨_, .more ha hl⟩
    | broken _ => exact ⟨l, hl⟩

theorem Pieces.sections (h : Pieces SectionPiece behind good all faults) :
    ∃ l, Repeated IsSection (good.map Token.kind) l := by
  induction h with
  | none => exact ⟨[], .none⟩
  | more hp _ ih =>
    obtain ⟨l, hl⟩ := ih
    cases hp with
    | constants hk hitems =>
      obtain ⟨items, hitems⟩ := hitems.repeated
      rw [List.map_append, List.map_cons, hk]
      exact ⟨_, .more (.constants hitems) hl⟩
    | types hk hitems =>
      obtain ⟨items, hitems⟩ := hitems.repeated
      rw [List.map_append, List.map_cons, hk]
      exact ⟨_, .more (.types hitems) hl⟩
    | unsupported _ _ => exact ⟨l, hl⟩

/-- Without its faults, a source is a compilation unit. -/
theorem Spoiled.isUnit (h : Spoiled good all faults) : ∃ u, IsUnit (good.map Token.kind) u := by
  cases h with
  | definition hh hi hs hf =>
    obtain ⟨imports, hi⟩ := hi.repeated
    obtain ⟨sections, hs⟩ := hs.sections
    simp only [List.map_append]
    exact ⟨_, .definition hh hi hs hf⟩
  | program hh hi hs hb hf =>
    obtain ⟨imports, hi⟩ := hi.repeated
    obtain ⟨sections, hs⟩ := hs.sections
    simp only [List.map_append]
    have hunit := IsUnit.program hh hi (.block hs hb) hf
    rw [List.append_assoc] at hunit
    exact ⟨_, hunit⟩

/-! ## No faults -/

theorem Repeated.pieces {l : List α} (h : Repeated phrase (w.map Token.kind) l) :
    Pieces (TriedPiece phrase broken) behind w w [] := by
  generalize hks : w.map Token.kind = ks at h
  induction h generalizing w with
  | none =>
    rw [List.map_eq_nil_iff.1 hks]
    exact .none
  | more ha _ ih =>
    obtain ⟨u, v, rfl, rfl, hv⟩ := List.map_eq_append_iff.1 hks
    exact .more (.sound ha) (ih hv)

theorem Repeated.sectionPieces {l : List Declaration}
    (h : Repeated IsSection (w.map Token.kind) l) : Pieces SectionPiece behind w w [] := by
  generalize hks : w.map Token.kind = ks at h
  induction h generalizing w with
  | none =>
    rw [List.map_eq_nil_iff.1 hks]
    exact .none
  | more hs _ ih =>
    obtain ⟨u, v, rfl, hu, hv⟩ := List.map_eq_append_iff.1 hks
    cases hs with
    | constants hitems =>
      obtain ⟨head, u, rfl, hhead, rfl⟩ := List.map_eq_cons_iff.1 hu
      exact .more (.constants hhead hitems.pieces) (ih hv)
    | types hitems =>
      obtain ⟨head, u, rfl, hhead, rfl⟩ := List.map_eq_cons_iff.1 hu
      exact .more (.types hhead hitems.pieces) (ih hv)

/-- Faults may be put into any compilation unit, and none of them is one way to do so. -/
theorem Spoiled.of_isUnit {u : CompilationUnit} (h : IsUnit (w.map Token.kind) u) :
    Spoiled w w [] := by
  generalize hks : w.map Token.kind = ks at h
  cases h with
  | definition hh hi hs hf =>
    obtain ⟨h, w₁, rfl, rfl, hw₁⟩ := List.map_eq_append_iff.1 hks
    obtain ⟨i, w₂, rfl, rfl, hw₂⟩ := List.map_eq_append_iff.1 hw₁
    obtain ⟨s, f, rfl, rfl, rfl⟩ := List.map_eq_append_iff.1 hw₂
    exact .definition hh hi.pieces hs.sectionPieces hf
  | program hh hi hb hf =>
    obtain ⟨h, w₁, rfl, rfl, hw₁⟩ := List.map_eq_append_iff.1 hks
    obtain ⟨i, w₂, rfl, rfl, hw₂⟩ := List.map_eq_append_iff.1 hw₁
    obtain ⟨w₃, f, rfl, hw₃, rfl⟩ := List.map_eq_append_iff.1 hw₂
    cases hb with
    | block hs hbody =>
      obtain ⟨s, b, rfl, rfl, rfl⟩ := List.map_eq_append_iff.1 hw₃
      have hspoiled := Spoiled.program hh hi.pieces hs.sectionPieces hbody hf
      simpa only [List.append_assoc, List.append_nil] using hspoiled

end

end Modula

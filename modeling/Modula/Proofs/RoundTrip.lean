import Modula.Proofs.Acceptance
import Modula.Proofs.Lexer.Written
import Modula.Proofs.Written.Unit
/-!
# Written units are read back

  A tree is written in two steps, and reading takes them back in turn:

      tree  --tokens-->  token kinds  --spellings-->  text
      tree  <--parse---  token kinds  <--tokenize---  text

  On the left, the tokens of a grammatical unit are a sentence of the grammar that stands for it.  On
  the right, well-formed tokens with spaces between them come back as they were.  What holds the two
  together is that the tokens of a grammatical unit are well-formed.
-/

namespace Modula

/-- No token that has a spelling ends the source. -/
theorem Tokenized.kinds_of_map {found : Tokenized} {ks : List Token.Kind} (hks : Spellable ks)
    (h : found.tokens.map Token.kind = ks ++ [Token.Kind.eof]) : found.kinds = ks := by
  have goesOn : ∀ k ∈ ks, (!k.isEof) = true := by
    intro k hk
    have hwf : k.isWellFormed = true := hks k hk
    cases k with
    | eof => cases hwf
    | _ => rfl
  have hkinds : found.kinds = (found.tokens.map Token.kind).takeWhile fun k => !k.isEof := by
    rw [List.takeWhile_map]
    rfl
  rw [hkinds, h, List.takeWhile_append_of_pos goesOn]
  exact List.append_nil ks

/-- A grammatical unit can be written, and however its tokens are spelled, under all options it is
read back without error, up to ids and spans. -/
theorem parse_written (u : CompilationUnit) (hu : u.isGrammatical = true) :
    (∃ spellings, List.Forall₂ Token.Kind.Spells u.tokens spellings) ∧
    ∀ spellings, List.Forall₂ Token.Kind.Spells u.tokens spellings → ∀ options,
      (parse (String.ofList (written spellings)) options).isOk = true ∧
      (parse (String.ofList (written spellings)) options).unit.map
        (CompilationUnit.relabel .forget) = some (u.relabel .forget) := by
  have hspellable : Spellable u.tokens := CompilationUnit.spellable_tokens hu
  refine ⟨exists_spellings hspellable, fun spellings h options => ?_⟩
  obtain ⟨herrors, htokens⟩ := tokenize_of_spells hspellable h
  have hunit : IsUnit (tokenize (String.ofList (written spellings))).kinds (u.relabel .forget) := by
    rw [Tokenized.kinds_of_map hspellable htokens]
    exact CompilationUnit.isUnit_tokens hu
  obtain ⟨t, ht, hrelabel⟩ := parse_of_isUnit herrors hunit
  rw [ht options]
  exact ⟨rfl, congrArg some hrelabel⟩

/-- The program with the one constant `n = -(0FH)`. -/
def signedConstant : CompilationUnit :=
  let value : Expr := ⟨0, .signed .minus ⟨0, .integer ⟨.hex, "0F"⟩, .nowhere⟩, .nowhere⟩
  let constants : Declaration := ⟨0, .constants [⟨⟨"n", .nowhere⟩, value, .nowhere⟩], .nowhere⟩
  .program ⟨false, ⟨"M", .nowhere⟩, [], ⟨[constants], none, .nowhere⟩, ⟨"M", .nowhere⟩, .nowhere⟩

theorem parse_written_signedConstant :
    (parse "MODULE M ; CONST n = - ( 0FH ) ; END M ." .default).isOk = true ∧
      (parse "MODULE M ; CONST n = - ( 0FH ) ; END M ." .default).unit.map
        (CompilationUnit.relabel .forget) = some (signedConstant.relabel .forget) :=
  (parse_written signedConstant (by decide)).2
    ["MODULE".toList, "M".toList, ";".toList, "CONST".toList, "n".toList, "=".toList, "-".toList,
      "(".toList, "0FH".toList, ")".toList, ";".toList, "END".toList, "M".toList, ".".toList]
    (.cons (.word _) (.cons (.name _) (.cons (.symbol _) (.cons (.word _) (.cons (.name _)
      (.cons (.symbol _) (.cons (.symbol _) (.cons (.symbol _) (.cons (.integer _) (.cons (.symbol _)
        (.cons (.symbol _) (.cons (.word _) (.cons (.name _) (.cons (.symbol _) .nil))))))))))))))
    .default

end Modula

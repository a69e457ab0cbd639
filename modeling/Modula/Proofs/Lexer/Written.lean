import Mathlib.Data.List.Forall2
import Modula.Lexer
import Modula.Proofs.Lexeme.Read
/-!
# Written tokens are read back

  Tokens are written by their spellings with one space between two of them.  The space keeps them
  apart: what stands next to each other would often be read as something longer.  Read again, such a
  text has no lexical error, and its tokens are those that were written (`tokenize_of_spells`).
-/

namespace Modula

/-- The spellings of tokens, with one space between two of them. -/
def written (spellings : List Text) : Text := [' '].intercalate spellings

namespace Lexer

/-- Without an error, the tokens up to the end of the source are of these kinds. -/
def Yields (l : Lexer) (ks : List Token.Kind) : Prop :=
  ∀ errorsLeft, (l.tokenizeFrom errorsLeft).1.errors = [] ∧
    (l.tokenizeFrom errorsLeft).1.tokens.map Token.kind = ks ++ [Token.Kind.eof]

/-! ## Single items -/

theorem next_of_nil (p : Place) :
    (Lexer.mk [] p).next = (.ok (Lexer.mk [] p).endToken, ⟨[], p⟩) := by
  rw [next]

theorem next_of_space (rest : Text) (p : Place) :
    (Lexer.mk (' ' :: rest) p).next = (Lexer.mk rest (p.step ' ')).next := by
  rw [next]
  rfl

/-- A spelling is not empty. -/
theorem exists_cons_of_spells {k : Token.Kind} {text : Text} (hk : k.isWellFormed = true)
    (hs : k.Spells text) : ∃ c t, text = c :: t := by
  cases text with
  | cons c t => exact ⟨c, t, rfl⟩
  | nil =>
    generalize hu : ([] : Text) = u at hs
    cases hs with
    | integer n =>
      obtain ⟨d, ds, hdigits, -⟩ := Lexeme.exists_digit hk
      rw [hdigits] at hu
      cases hu
    | real text =>
      rw [Token.Kind.isWellFormed, ← hu] at hk
      cases hk
    | string content hq hfit => cases hu
    | name text =>
      rw [Token.Kind.isWellFormed, isFreeName, ← hu] at hk
      cases hk
    | word keyword => cases keyword <;> cases hu
    | symbol s => cases s <;> cases hu

theorem next_of_spells {k : Token.Kind} {text rest : Text} (p : Place) (hk : k.isWellFormed = true)
    (hs : k.Spells text) (hr : Lexeme.Apart rest) :
    ∃ t : Token, t.kind = k ∧
      (Lexer.mk (text ++ rest) p).next = (.ok t, ⟨rest, p.advance text⟩) := by
  obtain ⟨c, u, rfl⟩ := exists_cons_of_spells hk hs
  have hskip : (Lexer.mk (c :: (u ++ rest)) p).skip (u.length + 1) =
      ⟨rest, p.advance (c :: u)⟩ := by
    rw [skip, List.drop_succ_cons, List.take_succ_cons, List.drop_left, List.take_left]
  refine ⟨(Lexer.mk (c :: u ++ rest) p).tokenOf k (u.length + 1), rfl, ?_⟩
  rw [next]
  dsimp only [List.cons_append]
  rw [Lexeme.read_of_spells hk hs hr]
  dsimp only
  rw [hskip]

/-! ## All tokens -/

/-- Reading on depends on nothing but the next item. -/
theorem tokenizeFrom_eq (errorsLeft : Nat) (l : Lexer) :
    tokenizeFrom errorsLeft l =
      match l.next, errorsLeft with
      | (.ok token, l'), errorsLeft =>
        if token.kind.isEof then (⟨[token], []⟩, l')
        else
          ({ (tokenizeFrom errorsLeft l').1 with
              tokens := token :: (tokenizeFrom errorsLeft l').1.tokens },
            (tokenizeFrom errorsLeft l').2)
      | (.error e, l'), 0 => (⟨[l'.endToken], [e]⟩, l')
      | (.error e, l'), errorsLeft + 1 =>
        ({ (tokenizeFrom errorsLeft l').1 with
            errors := e :: (tokenizeFrom errorsLeft l').1.errors },
          (tokenizeFrom errorsLeft l').2) := by
  rw [tokenizeFrom]
  split
  · next token l' heq =>
    rw [heq]
    dsimp only
    split <;> rfl
  · next e l' heq =>
    rw [heq]
    cases errorsLeft <;> rfl

theorem Yields.of_next_eq {l l' : Lexer} {ks : List Token.Kind} (h : l.next = l'.next)
    (hl : l'.Yields ks) : l.Yields ks := by
  intro errorsLeft
  rw [tokenizeFrom_eq, h, ← tokenizeFrom_eq]
  exact hl errorsLeft

theorem Yields.nil {l l' : Lexer} {t : Token} (h : l.next = (.ok t, l'))
    (ht : t.kind.isEof = true) : l.Yields [] := by
  intro errorsLeft
  rw [tokenizeFrom_eq, h]
  dsimp only
  rw [if_pos ht]
  exact ⟨rfl, by rw [List.map_singleton, Token.Kind.isEof_iff.1 ht]; rfl⟩

/-- One more token is in front of those that the lexer behind it yields. -/
theorem Yields.cons {l l' : Lexer} {t : Token} {ks : List Token.Kind} (h : l.next = (.ok t, l'))
    (ht : t.kind.isEof = false) (hl : l'.Yields ks) : l.Yields (t.kind :: ks) := by
  intro errorsLeft
  obtain ⟨herrors, hkinds⟩ := hl errorsLeft
  rw [tokenizeFrom_eq, h]
  dsimp only
  rw [if_neg (by rw [ht]; exact Bool.false_ne_true)]
  exact ⟨herrors, congrArg (t.kind :: ·) hkinds⟩

/-- Written tokens are yielded, whatever the place. -/
theorem Yields.of_spells {ks : List Token.Kind} {spellings : List Text}
    (hks : ∀ k ∈ ks, k.isWellFormed = true) (h : List.Forall₂ Token.Kind.Spells ks spellings) :
    ∀ p, (Lexer.mk (written spellings) p).Yields ks := by
  induction h with
  | nil =>
    intro p
    exact .nil (next_of_nil p) rfl
  | @cons k text ks spellings hs h ih =>
    intro p
    have hk : k.isWellFormed = true := hks k (List.mem_cons_self ..)
    have hend : k.isEof = false := by cases hs <;> rfl
    have behind : ∀ p, ∃ rest, written (text :: spellings) = text ++ rest ∧ Lexeme.Apart rest ∧
        (Lexer.mk rest p).Yields ks := by
      intro p
      have hrest := ih (fun k' hk' => hks k' (List.mem_cons_of_mem _ hk'))
      cases h with
      | nil => exact ⟨[], by simp [written], nofun, hrest p⟩
      | @cons k' text' ks spellings hs' h =>
        -- a space keeps the next token apart
        refine ⟨' ' :: written (text' :: spellings), by simp [written, List.intercalate], ?_, ?_⟩
        · intro c hc
          exact (Option.some.inj hc).symm
        · exact .of_next_eq (next_of_space _ p) (hrest _)
    obtain ⟨rest, hwritten, hapart, hrest⟩ := behind (p.advance text)
    obtain ⟨t, rfl, hnext⟩ := next_of_spells p hk hs hapart
    rw [hwritten]
    exact .cons hnext hend hrest

end Lexer

theorem exists_spellings {ks : List Token.Kind} (hks : ∀ k ∈ ks, k.isWellFormed = true) :
    ∃ spellings, List.Forall₂ Token.Kind.Spells ks spellings := by
  induction ks with
  | nil => exact ⟨[], .nil⟩
  | cons k ks ih =>
    obtain ⟨text, htext⟩ := Token.Kind.exists_spelling (hks k (List.mem_cons_self ..))
    obtain ⟨spellings, h⟩ := ih fun k' hk' => hks k' (List.mem_cons_of_mem _ hk')
    exact ⟨text :: spellings, .cons htext h⟩

theorem tokenize_of_spells {ks : List Token.Kind} {spellings : List Text}
    (hks : ∀ k ∈ ks, k.isWellFormed = true) (h : List.Forall₂ Token.Kind.Spells ks spellings) :
    (tokenize (String.ofList (written spellings))).errors = [] ∧
      (tokenize (String.ofList (written spellings))).tokens.map Token.kind =
        ks ++ [Token.Kind.eof] := by
  have hyields := Lexer.Yields.of_spells hks h .origin (Lexer.errorLimit - 1)
  rw [tokenize, String.toList_ofList]
  exact hyields

/-- Well-formed tokens can be written, and however they are written, they are read back. -/
theorem tokenize_written (ks : List Token.Kind) (hks : ∀ k ∈ ks, k.isWellFormed = true) :
    (∃ spellings, List.Forall₂ Token.Kind.Spells ks spellings) ∧
    ∀ spellings, List.Forall₂ Token.Kind.Spells ks spellings →
      (tokenize (String.ofList (written spellings))).errors = [] ∧
      (tokenize (String.ofList (written spellings))).tokens.map Token.kind =
        ks ++ [Token.Kind.eof] :=
  ⟨exists_spellings hks, fun _ h => tokenize_of_spells hks h⟩

theorem tokenize_written_constant :
    (tokenize "N = 0D5D * 1.5E-3").errors = [] ∧
      (tokenize "N = 0D5D * 1.5E-3").tokens.map Token.kind =
        [.name "N", .symbol .equal, .integer ⟨.double, "0D5"⟩, .symbol .times, .real "1.5E-3",
          .eof] :=
  (tokenize_written
    [.name "N", .symbol .equal, .integer ⟨.double, "0D5"⟩, .symbol .times, .real "1.5E-3"]
    (by decide)).2
    ["N".toList, "=".toList, "0D5D".toList, "*".toList, "1.5E-3".toList]
    (.cons (.name _) (.cons (.symbol _) (.cons (.integer _) (.cons (.symbol _)
      (.cons (.real _) .nil)))))

end Modula

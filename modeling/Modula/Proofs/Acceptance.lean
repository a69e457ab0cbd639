import Modula.Report
import Modula.Proofs.Reading.Unit
/-!
# What sources are accepted

  A source is accepted when it has no lexical error and its tokens are a compilation unit of the
  grammar.  The tree in the report is then what the grammar says the tokens stand for, up to ids and
  spans.

  The options have no say in this.  They limit how many errors are told about, and a source is either
  without errors or not; even ids and spans of the tree are the same for all options.
-/

namespace Modula

/-- What stands before the end of the source, token by token. -/
def Tokenized.kinds (found : Tokenized) : List Token.Kind :=
  (found.tokens.takeWhile fun t => !t.kind.isEof).map Token.kind

/-- A lexical error is always reported. -/
theorem Report.isOk_of_lexical {errors : List LexError} {n : Nat} (h : errors ≠ []) :
    (ofErrors ((errors.take (max n 1)).map .lexical)).isOk = false := by
  obtain ⟨e, es, rfl⟩ := List.exists_cons_of_ne_nil h
  obtain ⟨m, hm⟩ : ∃ m, max n 1 = m + 1 := ⟨max n 1 - 1, by omega⟩
  rw [hm]
  rfl

/-- A reading without errors is a reading to the end, in which nothing was noted. -/
theorem Cursor.readUnit_isOk {options : Options} {c : Cursor}
    (h : (c.readUnit options).1.isOk = true) :
    ∃ t s, Recovering.unit options ⟨c, []⟩ = .ok t s ∧ s.log = [] ∧
      (c.readUnit options).1 = .ofUnit t := by
  unfold readUnit at h ⊢
  split at h
  · next t s ht =>
    cases hlog : s.log with
    | nil => exact ⟨t, s, ht, hlog, rfl⟩
    | cons r log =>
      rw [hlog] at h
      cases h
  · next e s he =>
    rw [Report.isOk, Report.ofErrors, List.isEmpty_iff, List.map_eq_nil_iff] at h
    exact absurd h (List.append_ne_nil_of_right_ne_nil _ (List.cons_ne_nil _ _))

/-- What is accepted has no lexical error, and is a compilation unit with the tree of the report. -/
theorem parse_isOk {source : String} {options : Options}
    (h : (parse source options).isOk = true) :
    (tokenize source).errors = [] ∧ ∃ t, parse source options = .ofUnit t ∧
      IsUnit (tokenize source).kinds (t.relabel .forget) := by
  unfold parse at h ⊢
  dsimp only at h ⊢
  split at h
  · next hl =>
    obtain ⟨t, s, ht, hlog, hreport⟩ := Cursor.readUnit_isOk h
    exact ⟨hl, t, hreport, Recovering.unit_readsOnly ht hlog⟩
  · next errors hl =>
    rw [Report.isOk_of_lexical hl] at h
    cases h

/-- A compilation unit is accepted, and the report on it is the same for all options. -/
theorem parse_of_isUnit {source : String} {u : CompilationUnit}
    (hl : (tokenize source).errors = []) (hu : IsUnit (tokenize source).kinds u) :
    ∃ t : CompilationUnit, (∀ options, parse source options = .ofUnit t) ∧
      t.relabel .forget = u := by
  obtain ⟨t, c', h, ht⟩ := Recovering.unit_readsAll (c := .ofTokens (tokenize source).tokens) hu
  refine ⟨t, fun options => ?_, ht⟩
  unfold parse
  dsimp only
  rw [hl]
  show (Cursor.readUnit options _).1 = _
  rw [Cursor.readUnit, h options []]
  rfl

/-- Acceptance is membership in the grammar, and the tree is the one that the grammar gives.  Neither
depends on the options. -/
theorem parse_isOk_iff_isUnit (source : String) (options : Options) :
    ((parse source options).isOk = true ↔
      (tokenize source).errors = [] ∧ ∃ u, IsUnit (tokenize source).kinds u) ∧
    ∀ u, (tokenize source).errors = [] ∧ IsUnit (tokenize source).kinds u ↔
      ∃ t : CompilationUnit, (∀ anyOptions, parse source anyOptions = .ofUnit t) ∧
        t.relabel .forget = u := by
  refine ⟨⟨fun h => ?_, ?_⟩, fun u => ⟨?_, ?_⟩⟩
  · obtain ⟨hl, t, -, ht⟩ := parse_isOk h
    exact ⟨hl, t.relabel .forget, ht⟩
  · rintro ⟨hl, u, hu⟩
    obtain ⟨t, ht, -⟩ := parse_of_isUnit hl hu
    rw [ht options]
    rfl
  · rintro ⟨hl, hu⟩
    exact parse_of_isUnit hl hu
  · -- the tree of the report is the one that reading gives
    rintro ⟨t, ht, rfl⟩
    have hok : (parse source options).isOk = true := by
      rw [ht options]
      rfl
    obtain ⟨hl, t', ht', hu⟩ := parse_isOk hok
    rw [ht options] at ht'
    injection ht' with hunit
    injection hunit with heq
    exact ⟨hl, heq ▸ hu⟩

end Modula

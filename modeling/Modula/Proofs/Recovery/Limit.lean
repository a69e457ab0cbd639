import Mathlib.Data.List.ModifyLast
import Modula.Proofs.Acceptance
import Modula.Proofs.Recovery.Order
/-!
# The error limit

  A limit truncates the list of errors.  What would be found without a limit is found with one, up to
  the error that makes up the limit; and that error is the one that reading ends with.

  There is one exception.  If statements begin at the end of the source, as in a module that ends with
  its `BEGIN`, the error about them is noted and a second one is found, that the footer is missing.  When
  the first of the two is the one that makes up the limit, it is reported as the second one (`atCut`).

  So options never decide whether there is an error, and the tree and its warnings are the same for all
  of them (`readUnit_truncated`).
-/

namespace Modula

open Recovering (atCut headerName logOf)

theorem length_modifyLast {α : Type} (f : α → α) (l : List α) : (l.modifyLast f).length = l.length := by
  cases l using List.reverseRec with
  | nil => rfl
  | append_singleton l a =>
    rw [List.modifyLast_concat, List.length_append, List.length_append]
    rfl

/-- What leaves the last element of a list alone leaves the list alone. -/
theorem modifyLast_eq_self {α : Type} {f : α → α} {l : List α} (h : ∀ a ∈ l, f a = a) :
    l.modifyLast f = l := by
  cases l using List.reverseRec with
  | nil => rfl
  | append_singleton l a => rw [List.modifyLast_concat, h a List.mem_concat_self]

namespace Cursor

variable {options options' : Options} {c : Cursor}

/-- The last error of a reading is in its final form. -/
theorem syntaxErrors_final (options : Options) (c : Cursor) :
    (c.syntaxErrors options).modifyLast (atCut (headerName c.kinds)) = c.syntaxErrors options := by
  unfold syntaxErrors
  cases h : Recovering.unit options ⟨c, []⟩ with
  | error e s =>
    have hfinal := (Recovering.unit_orderly ⟨c, []⟩).final options e s h
    dsimp only
    rw [List.modifyLast_concat, hfinal]
  | ok u s =>
    refine modifyLast_eq_self fun e he => ?_
    obtain ⟨r, hr, rfl⟩ := List.mem_map.1 he
    exact Recovering.atCut_of_remaining (Recovering.unit_ok h r hr)

/-- With a smaller limit, the first errors are found, and the last of them gets its final form. -/
theorem syntaxErrors_cut (h : options.limit ≤ options'.limit) : c.syntaxErrors options =
    ((c.syntaxErrors options').take options.limit).modifyLast (atCut (headerName c.kinds)) := by
  obtain ⟨hsame, hcut⟩ := (Recovering.unit_orderly ⟨c, []⟩).cut options options' options.limit_pos h
  obtain ⟨d, last, -, hsplit, hlast, -⟩ := c.exists_trail options'
  rcases Nat.lt_or_ge (c.recoveries options').length options.limit with hlt | hge
  · -- the limit is not reached, so both readings are the same one
    have heq : c.syntaxErrors options' = c.syntaxErrors options := by
      rw [syntaxErrors, syntaxErrors, hsame hlt]
    have hlen : (c.syntaxErrors options').length ≤ options.limit := by
      rw [hsplit, List.length_append, List.length_map]
      omega
    rw [List.take_of_length_le hlen, heq, syntaxErrors_final]
  · -- the note that makes up the limit is the last of the first ones
    obtain ⟨n, c', hn, -, heq⟩ := hcut hge
    have hfirst : (c.recoveries options').take options.limit =
        (c.recoveries options').take (options.limit - 1) ++ [n] := by
      have hsucc : options.limit = options.limit - 1 + 1 := by
        have hpos := options.limit_pos
        omega
      rw [hsucc, List.take_add_one]
      exact congrArg _ (congrArg Option.toList hn)
    calc c.syntaxErrors options
        = ((c.recoveries options').take (options.limit - 1)).map Recovery.error ++
            [atCut (headerName c.kinds) n.error] := by rw [syntaxErrors, heq]; rfl
      _ = (((c.recoveries options').take options.limit).map Recovery.error).modifyLast
            (atCut (headerName c.kinds)) := by
          rw [hfirst, List.map_append, List.map_singleton, List.modifyLast_concat]
      _ = ((c.syntaxErrors options').take options.limit).modifyLast
            (atCut (headerName c.kinds)) := by
          rw [hsplit, List.take_append_of_le_length (by rw [List.length_map]; exact hge),
            List.map_take]

/-- There are at most as many errors as tokens, and one. -/
theorem length_syntaxErrors (options : Options) (c : Cursor) :
    (c.syntaxErrors options).length ≤ c.remaining + 1 := by
  obtain ⟨d, last, ht, hsplit, hlast, -⟩ := c.exists_trail options
  have hlen := ht.length_le
  rw [hsplit, List.length_append, List.length_map]
  omega

/-! ## Trees and warnings -/

/-- A source without errors has the same report for all options. -/
theorem readUnit_eq_ofUnit (h : (c.readUnit options).1.isOk = true) :
    ∃ u, ∀ anyOptions, (c.readUnit anyOptions).1 = .ofUnit u := by
  obtain ⟨t, s, hrun, hlog, -⟩ := readUnit_isOk h
  have ht : IsUnit c.kinds (t.relabel .forget) := Recovering.unit_readsOnly hrun hlog
  obtain ⟨u, c', hu, -⟩ := Recovering.unit_readsAll ht
  refine ⟨u, fun anyOptions => ?_⟩
  rw [readUnit, hu anyOptions []]
  rfl

/-- A source with errors has no tree and no warning. -/
theorem readUnit_eq_ofErrors (h : ¬ (c.readUnit options).1.isOk = true) :
    ∃ errors, (c.readUnit options).1 = .ofErrors errors := by
  unfold readUnit at h ⊢
  cases hrun : Recovering.unit options ⟨c, []⟩ with
  | error e s => exact ⟨_, rfl⟩
  | ok u s =>
    rw [hrun] at h
    dsimp only at h ⊢
    cases hlog : s.log with
    | nil =>
      rw [hlog] at h
      exact absurd rfl h
    | cons r log => exact ⟨_, rfl⟩

theorem readUnit_unit_eq (options options' : Options) (c : Cursor) :
    (c.readUnit options).1.unit = (c.readUnit options').1.unit := by
  by_cases h : (c.readUnit options).1.isOk = true
  · obtain ⟨u, hu⟩ := readUnit_eq_ofUnit h
    rw [hu options, hu options']
  · by_cases h' : (c.readUnit options').1.isOk = true
    · obtain ⟨u, hu⟩ := readUnit_eq_ofUnit h'
      rw [hu options, hu options']
    · obtain ⟨errors, he⟩ := readUnit_eq_ofErrors h
      obtain ⟨errors', he'⟩ := readUnit_eq_ofErrors h'
      rw [he, he']
      rfl

end Cursor

theorem CompilationUnit.mem_warnings {u : CompilationUnit} {w : Warning} :
    w ∈ u.warnings ↔ u.name.name ≠ u.footer.name ∧ w = .moduleNameMismatch u.name u.footer := by
  unfold warnings
  split
  · next h => exact ⟨fun hw => absurd hw List.not_mem_nil, fun hw => absurd h hw.1⟩
  · next h => simp [h]

/-- The tree is there without errors only, and what is warned of is read off the tree. -/
theorem Cursor.readUnit_tree (options : Options) (c : Cursor) :
    let report := (c.readUnit options).1
    (report.unit.isSome = true ↔ report.errors = []) ∧
      ∀ w, w ∈ report.warnings ↔ ∃ u, report.unit = some u ∧ u.name.name ≠ u.footer.name ∧
        w = .moduleNameMismatch u.name u.footer := by
  intro report
  -- Whether there is a tree does not depend on the options.
  by_cases h : report.isOk = true
  · obtain ⟨u, hu⟩ := readUnit_eq_ofUnit h
    have hreport : report = .ofUnit u := hu options
    rw [hreport]
    refine ⟨⟨fun _ => rfl, fun _ => rfl⟩, fun w => ?_⟩
    refine CompilationUnit.mem_warnings.trans ⟨fun hw => ⟨u, rfl, hw⟩, ?_⟩
    rintro ⟨u', hu', hw⟩
    obtain rfl : u = u' := Option.some.inj hu'
    exact hw
  · obtain ⟨errors, he⟩ := readUnit_eq_ofErrors h
    have hreport : report = .ofErrors errors := he
    rw [hreport] at h ⊢
    refine ⟨⟨fun hsome => Bool.noConfusion hsome, fun hnil => absurd ?_ h⟩, fun w => ⟨?_, ?_⟩⟩
    · exact List.isEmpty_iff.2 hnil
    · exact fun hw => absurd hw List.not_mem_nil
    · rintro ⟨u, hu, -⟩
      cases hu

/-- Some limit is large enough for all errors.  With a limit that is, they are all found, and with any
options the first of them are, as many as the limit says; the last of these is in its final form.  A
tree is there if and only if there is no error, it is the same for all options, and a warning is there
if and only if the tree is and the names of its header and its footer differ. -/
theorem readUnit_truncated (tokens : List Token) :
    let c := Cursor.ofTokens tokens
    let report := fun options => (c.readUnit options).1
    (∃ n, ∃ E : List SyntaxError,
      (report ⟨n, true⟩).errors = E.map Diagnostic.grammatical ∧ E.length < n) ∧
    (∀ n, ∀ E : List SyntaxError,
      (report ⟨n, true⟩).errors = E.map Diagnostic.grammatical → E.length < n →
      ∀ options : Options, (report options).errors =
        ((E.take options.limit).modifyLast (atCut (headerName c.kinds))).map .grammatical) ∧
    ∀ options,
      ((report options).unit.isSome = true ↔ (report options).errors = []) ∧
      (∀ options', (report options).unit = (report options').unit) ∧
      ∀ w, w ∈ (report options).warnings ↔
        ∃ u, (report options).unit = some u ∧ u.name.name ≠ u.footer.name ∧
          w = .moduleNameMismatch u.name u.footer := by
  intro c report
  refine ⟨?_, fun n E hE hn options => ?_, fun options => ?_⟩
  -- There are no more errors than tokens, so a limit that is large enough exists.
  · refine ⟨c.remaining + 2, c.syntaxErrors _, c.readUnit_errors _, ?_⟩
    have hlen := c.length_syntaxErrors ⟨c.remaining + 2, true⟩
    omega
  · have hinj : Function.Injective Diagnostic.grammatical := fun _ _ h => Diagnostic.grammatical.inj h
    obtain rfl : c.syntaxErrors ⟨n, true⟩ = E :=
      List.map_injective_iff.2 hinj ((c.readUnit_errors _).symm.trans hE)
    -- With `E` shorter than the limit, the list has been cut by nothing.
    have hlimit : Options.limit ⟨n, true⟩ = n := by
      show max 1 n = n
      omega
    have herrors : (report options).errors = (c.syntaxErrors options).map .grammatical :=
      c.readUnit_errors options
    rw [herrors]
    refine congrArg _ ?_
    rcases Nat.le_total options.limit n with hle | hge
    · exact Cursor.syntaxErrors_cut (hle.trans_eq hlimit.symm)
    · -- a larger limit finds no further errors
      have hcut := @Cursor.syntaxErrors_cut ⟨n, true⟩ options c (hlimit.trans_le hge)
      have hshort : (c.syntaxErrors options).length ≤ n := by
        rw [hcut, hlimit, length_modifyLast, List.length_take] at hn
        omega
      have heq : c.syntaxErrors ⟨n, true⟩ = c.syntaxErrors options := by
        rw [hcut, hlimit, List.take_of_length_le hshort, Cursor.syntaxErrors_final]
      rw [heq, List.take_of_length_le (hshort.trans hge), Cursor.syntaxErrors_final]
  · obtain ⟨htree, hwarnings⟩ := c.readUnit_tree options
    exact ⟨htree, fun options' => c.readUnit_unit_eq options options', hwarnings⟩

/-- Tokens of these kinds on one line, each of them one byte long, from this byte on. -/
def Token.Kind.row (start : Nat) (ks : List Token.Kind) : List Token :=
  ks.mapIdx fun i k => ⟨k, ⟨start + i, start + i + 1⟩, 1, start + i + 1⟩

/-- `MODULE m; BEGIN`, cut off there: of the two errors at the end of the source, a limit of one leaves
the second one. -/
theorem readUnit_truncated_begin :
    let tokens := Token.Kind.row 0 [.word .MODULE, .name "m", .symbol .semicolon, .word .BEGIN]
    let eof : Token := ⟨.eof, ⟨4, 4⟩, 1, 4⟩
    let statements : SyntaxError := ⟨.notSupported .statementSequences, eof, 0, .compilationUnit⟩
    let footer : SyntaxError := ⟨.missingFooter "m", eof, 0, .compilationUnit⟩
    ((Cursor.ofTokens tokens).readUnit ⟨3, true⟩).1.errors =
        [statements, footer].map Diagnostic.grammatical ∧
      ((Cursor.ofTokens tokens).readUnit ⟨1, true⟩).1.errors = [.grammatical footer] := by
  intro tokens eof statements footer
  have hall : ((Cursor.ofTokens tokens).readUnit ⟨3, true⟩).1.errors =
      [statements, footer].map Diagnostic.grammatical := rfl
  have hcut := (readUnit_truncated tokens).2.1 3 [statements, footer] hall (by decide) ⟨1, true⟩
  exact ⟨hall, hcut⟩

end Modula

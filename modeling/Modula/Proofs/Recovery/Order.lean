import Mathlib.Data.List.TakeWhile
import Modula.Report
import Modula.Proofs.Recovery.Unit
/-!
# The order of errors

  The errors of a report stand in the order of the tokens that they are about, and after each of them
  reading goes on at its token or behind it, never in front of it (`readUnit_inOrder`).

  This is read off the trail of the whole reading.  Places on the trail are cursors, and what is claimed
  is about places in the list of all tokens; a cursor on the trail stands at that place of the list at
  which as many tokens are unread as it says (`Cursor.token_at`).
-/

namespace Modula

/-! ## Places in a list of tokens -/

namespace Cursor

/-- All tokens of a source with its end.  The end is added if it is not among them. -/
def withStop (tokens : List Token) : List Token :=
  if tokens.any (fun t => t.kind.isEof) then tokens else tokens ++ [stopOf tokens]

theorem kind_stopOf (tokens : List Token) : (stopOf tokens).kind = .eof := by
  unfold stopOf
  split
  · next t ht =>
    have heof := List.find?_some (p := fun t : Token => t.kind.isEof) ht
    cases hk : t.kind <;> rw [hk] at heof <;> first | rfl | cases heof
  · split <;> rfl

/-- What is read of a list of tokens is its beginning, up to the end of the source. -/
theorem ofTokens_prefix (tokens : List Token) :
    (ofTokens tokens).rest ++ [(ofTokens tokens).stop] <+: withStop tokens := by
  show tokens.takeWhile (fun t => !t.kind.isEof) ++ [stopOf tokens] <+: withStop tokens
  have hsplit := List.takeWhile_append_dropWhile (p := fun t : Token => !t.kind.isEof) (l := tokens)
  unfold withStop
  cases hfind : tokens.find? (fun t => t.kind.isEof) with
  -- Without an end among the tokens all of them are read, and an end is put behind them.
  | none =>
    have hnone : ∀ t ∈ tokens, ¬ t.kind.isEof = true := by simpa using hfind
    have hall : tokens.takeWhile (fun t => !t.kind.isEof) = tokens := by
      rw [List.takeWhile_eq_self_iff]
      intro t ht
      simpa using hnone t ht
    have hany : ¬ tokens.any (fun t => t.kind.isEof) = true := by
      rw [List.any_eq_true]
      rintro ⟨t, ht, heof⟩
      exact hnone t ht heof
    rw [if_neg hany, hall]
  -- Otherwise reading stops at the first end, and what stands behind it is not looked at.
  | some t =>
    have hany : tokens.any (fun t => t.kind.isEof) = true :=
      List.any_eq_true.2 ⟨t, List.mem_of_find?_eq_some hfind,
        List.find?_some (p := fun t : Token => t.kind.isEof) hfind⟩
    have hstop : stopOf tokens = t := by rw [stopOf, hfind]
    obtain ⟨rest, hrest⟩ : ∃ rest, tokens.dropWhile (fun t => !t.kind.isEof) = t :: rest := by
      rw [List.find?_eq_head?_dropWhile_not, List.head?_eq_some_iff] at hfind
      exact hfind
    rw [if_pos hany, hstop]
    refine ⟨rest, ?_⟩
    rw [List.append_assoc, List.singleton_append, ← hrest]
    exact hsplit

/-- The token at a later cursor is found at the place that the number of unread tokens tells. -/
theorem token_at {c d : Cursor} (h : c ≤ d) :
    (c.rest ++ [c.stop])[c.remaining - d.remaining]? = some d.token := by
  obtain ⟨_, hstop, ts, hrest, rfl⟩ := h
  have hplace : c.remaining - d.remaining = ts.length := by
    rw [remaining, remaining, hrest, List.length_append, Nat.add_sub_cancel]
  rw [hplace, hrest, List.append_assoc, List.getElem?_append_right le_rfl, Nat.sub_self, ← hstop,
    token]
  cases d.rest with
  | nil => rfl
  | cons t ts => rfl

end Cursor

/-! ## What a trail tells -/

namespace Trail

variable {c d : Cursor} {log : List Recovery}

/-- Every error stands at a cursor on the way. -/
theorem standsAt (h : Trail c log d) : ∀ r ∈ log, ∃ d', c ≤ d' ∧ r.error.StandsAt d' := by
  induction h with
  | done _ => exact fun r hr => absurd hr List.not_mem_nil
  | noted hd he hres _ _ _ ih =>
    intro r hr
    rcases List.mem_cons.1 hr with rfl | hr
    · exact ⟨_, hd, he⟩
    · obtain ⟨d', hd', he'⟩ := ih r hr
      exact ⟨d', hd.trans (hres.trans hd'), he'⟩

/-- Reading goes on at the error or behind it. -/
theorem resumption_le (h : Trail c log d) : ∀ r ∈ log, r.resumption ≤ r.error.remaining := by
  induction h with
  | done _ => exact fun r hr => absurd hr List.not_mem_nil
  | noted _ he hres hr _ _ ih =>
    refine List.forall_mem_cons.2 ⟨?_, ih⟩
    rw [hr, he.2]
    exact Cursor.remaining_le_of_le hres

/-- The errors of the notes are in order. -/
theorem pairwise (h : Trail c log d) :
    (log.map Recovery.error).Pairwise fun e e' => e'.remaining ≤ e.remaining := by
  induction h with
  | done _ => exact .nil
  | @noted c d d' _ r log hd he hres hr hlt htail ih =>
    refine List.pairwise_cons.2 ⟨fun e' he' => ?_, ih⟩
    obtain ⟨r', hr', rfl⟩ := List.mem_map.1 he'
    obtain ⟨d'', hd'', hstand⟩ := htail.standsAt r' hr'
    rw [hstand.2, he.2]
    exact Cursor.remaining_le_of_le (hres.trans hd'')

end Trail

/-! ## Errors of a report -/

namespace Cursor

/-- The notes that are made where a compilation unit is read. -/
def recoveries (options : Options) (c : Cursor) : List Recovery :=
  Recovering.logOf (Recovering.unit options ⟨c, []⟩)

/-- The errors that are found where a compilation unit is read: those of the notes, and perhaps one that
reading ends with. -/
def syntaxErrors (options : Options) (c : Cursor) : List SyntaxError :=
  match Recovering.unit options ⟨c, []⟩ with
  | .ok _ s => s.log.map Recovery.error
  | .error e s => s.log.map Recovery.error ++ [e]

theorem readUnit_errors (options : Options) (c : Cursor) :
    (c.readUnit options).1.errors = (c.syntaxErrors options).map .grammatical := by
  unfold readUnit syntaxErrors
  cases Recovering.unit options ⟨c, []⟩ with
  | ok u s =>
    cases hlog : s.log with
    | nil => simp [hlog, Report.ofLog, Report.ofUnit]
    | cons r log => simp [hlog, Report.ofLog, Report.ofErrors]
  | error e s => rfl

/-- All notes are on one trail, and the error that reading may end with stands at the end of it. -/
theorem exists_trail (options : Options) (c : Cursor) : ∃ d last, Trail c (c.recoveries options) d ∧
    c.syntaxErrors options = (c.recoveries options).map Recovery.error ++ last ∧
    last.length ≤ 1 ∧ ∀ e ∈ last, e.StandsAt d := by
  have hf := (Recovering.unit_orderly ⟨c, []⟩).follows options
  unfold recoveries syntaxErrors
  -- Either there is no last error, or it stands where the trail ends.
  cases h : Recovering.unit options ⟨c, []⟩ with
  | ok u s =>
    rw [h] at hf
    obtain ⟨new, hlog, ht⟩ := hf
    obtain rfl : s.log = new := hlog
    refine ⟨s.cursor, [], ht, (List.append_nil _).symm, Nat.zero_le 1, fun e he => ?_⟩
    exact absurd he List.not_mem_nil
  | error e s =>
    rw [h] at hf
    obtain ⟨new, d, hlog, ht, he, -⟩ := hf
    obtain rfl : s.log = new := hlog
    refine ⟨d, [e], ht, rfl, le_rfl, fun e' he' => ?_⟩
    rw [List.mem_singleton.1 he']
    exact he

/-- All errors stand behind the beginning. -/
theorem syntaxErrors_standAt (options : Options) (c : Cursor) :
    ∀ e ∈ c.syntaxErrors options, ∃ d, c ≤ d ∧ e.StandsAt d := by
  obtain ⟨d, last, ht, heq, -, hlast⟩ := c.exists_trail options
  rw [heq]
  intro e he
  rcases List.mem_append.1 he with he | he
  · obtain ⟨r, hr, rfl⟩ := List.mem_map.1 he
    exact ht.standsAt r hr
  · exact ⟨d, ht.le, hlast e he⟩

/-- The errors are in order. -/
theorem syntaxErrors_pairwise (options : Options) (c : Cursor) :
    (c.syntaxErrors options).Pairwise fun e e' => e'.remaining ≤ e.remaining := by
  obtain ⟨d, last, ht, heq, hlen, hlast⟩ := c.exists_trail options
  rw [heq]
  refine List.pairwise_append.2 ⟨ht.pairwise, ?_, fun e he e' he' => ?_⟩
  · cases last with
    | nil => exact .nil
    | cons e rest =>
      have hzero : rest.length = 0 := Nat.le_zero.1 (Nat.le_of_succ_le_succ hlen)
      obtain rfl : rest = [] := List.eq_nil_of_length_eq_zero hzero
      exact List.pairwise_singleton _ e
  · obtain ⟨r, hr, rfl⟩ := List.mem_map.1 he
    rw [(hlast e' he').2]
    exact ht.remaining_le r hr

end Cursor

/-- The errors of a report are about tokens of the source, in the order of these tokens.  Those that
were noted come first, and behind each of them reading went on at its token or at a later one. -/
theorem readUnit_inOrder (tokens : List Token) (options : Options) :
    let c := Cursor.ofTokens tokens
    let errors := (c.readUnit options).1.errors
    let recoveries := c.recoveries options
    ∃ places : List Nat,
      List.Forall₂ (fun d place => ∃ e : SyntaxError,
        d = .grammatical e ∧ (Cursor.withStop tokens)[place]? = some e.token) errors places ∧
      places.Pairwise (· ≤ ·) ∧
      recoveries.map (fun r => Diagnostic.grammatical r.error) <+: errors ∧
      List.Forall₂ (fun r place => r.resumption ≤ c.remaining ∧ place ≤ c.remaining - r.resumption)
        recoveries (places.take recoveries.length) := by
  intro c errors recoveries
  have hstand := c.syntaxErrors_standAt options
  have horder := c.syntaxErrors_pairwise options
  have herrors : errors = (c.syntaxErrors options).map .grammatical := c.readUnit_errors options
  obtain ⟨d, last, ht, hsplit, -, -⟩ := c.exists_trail options
  -- A place is told by how many tokens were left when it was reached.
  refine ⟨(c.syntaxErrors options).map fun e => c.remaining - e.remaining, ?_, ?_, ?_, ?_⟩
  · rw [herrors, List.forall₂_map_left_iff, List.forall₂_map_right_iff, List.forall₂_same]
    intro e he
    refine ⟨e, rfl, ?_⟩
    obtain ⟨d, hd, htoken, hremaining⟩ := hstand e he
    have hplace := Cursor.token_at hd
    rw [hremaining, htoken]
    obtain ⟨rest, hrest⟩ := Cursor.ofTokens_prefix tokens
    rw [← hrest, List.getElem?_append_left (List.getElem?_eq_some_iff.1 hplace).1]
    exact hplace
  · rw [List.pairwise_map]
    exact horder.imp fun h => Nat.sub_le_sub_left h _
  · rw [herrors, hsplit, List.map_append, List.map_map]
    exact List.prefix_append _ _
  · rw [hsplit, List.map_append, List.map_map, List.take_left' (by rw [List.length_map]),
      List.forall₂_map_right_iff, List.forall₂_same]
    intro r hr
    -- Reading went on behind the error, and nothing is in front of the beginning.
    have hle := ht.resumption_le r hr
    obtain ⟨d', hd', -, hremaining⟩ := ht.standsAt r hr
    have hbound := Cursor.remaining_le_of_le hd'
    exact ⟨by omega, Nat.sub_le_sub_left hle _⟩

end Modula

import Modula.Parser.Item
import Modula.Proofs.Recovery.Skip
/-!
# Skipping procedures and statements

  What a procedure declares and does is not looked at, and neither is what a module does; so nearly any
  tokens may stand there.  What the skips rely on is told here.

  * The heading of a procedure ends with its first semicolon outside of parentheses.  So its parentheses
    have to match, as far as they are counted (`Balanced`).
  * The body of a procedure ends with the first `END` that repeats its name.  Any other `END` may stand in
    it, with or without a name, and so may everything else (`IsProcedure`).
  * Statements end in front of the footer, which is known by what comes behind it: nothing.

  A footer is never found too early, since it is looked for at the end of the source only
  (`isFooter_append`).
-/

namespace Modula

open Token.Kind (word symbol)

/-! ## Headings and bodies -/

/-- Parentheses match, and the tokens outside of them are such ones. -/
inductive Balanced : (outside : Token.Kind → Prop) → List Token.Kind → Prop
  | nil {outside : Token.Kind → Prop} : Balanced outside []
  | token {outside : Token.Kind → Prop} {k : Token.Kind} {w : List Token.Kind} :
    k ≠ symbol .openParen → k ≠ symbol .closeParen → outside k → Balanced outside w →
      Balanced outside (k :: w)
  | parentheses {outside : Token.Kind → Prop} {u w : List Token.Kind} :
    Balanced (fun _ => True) u → Balanced outside w →
      Balanced outside (symbol .openParen :: (u ++ symbol .closeParen :: w))

/-- `ident … ";"`, which is what comes behind the word `PROCEDURE`. -/
inductive IsHeading (text : String) : List Token.Kind → Prop
  | heading {w : List Token.Kind} : Balanced (fun k => k ≠ symbol .semicolon) w →
    IsHeading text (.name text :: (w ++ [symbol .semicolon]))

/-- `"END" ident ";"`, which closes the procedure of this name. -/
def procedureEnd (text : String) : List Token.Kind := [word .END, .name text, symbol .semicolon]

/-- A procedure behind its word `PROCEDURE`: a heading, and the body unless it stands in a definition
module. -/
inductive IsProcedure : (inDefinition : Bool) → List Token.Kind → Prop
  | heading {text : String} {w : List Token.Kind} : IsHeading text w → IsProcedure true w
  | withBody {text : String} {u v : List Token.Kind} : IsHeading text u → ¬ procedureEnd text <:+: v →
    IsProcedure false (u ++ (v ++ procedureEnd text))

/-! ## Lengths of what is skipped -/

namespace Skip

/-- What matches is passed over, at any depth at which the semicolons in it do not count. -/
theorem headingRest_of_balanced {outside : Token.Kind → Prop} {us ts : List Token} {depth : Nat}
    (h : Balanced outside (us.map Token.kind))
    (hdepth : depth = 0 → ∀ k, outside k → k ≠ symbol .semicolon) :
    headingRest depth (us ++ ts) = us.length + headingRest depth ts := by
  generalize hks : us.map Token.kind = ks at h
  -- By induction on the brackets, at any depth.
  induction h generalizing us depth ts with
  | nil =>
    rw [List.map_eq_nil_iff.1 hks, List.nil_append, List.length_nil, Nat.zero_add]
  | @token outside k w hopen hclose hk _ ih =>
    obtain ⟨t, us, rfl, rfl, hus⟩ := List.map_eq_cons_iff.1 hks
    -- A semicolon that ends the heading does not stand here, only one within brackets may.
    have hgoes : ¬ (t.kind = symbol .semicolon ∧ depth = 0) := by
      rintro ⟨hsemicolon, hzero⟩
      exact hdepth hzero _ hk hsemicolon
    rw [List.cons_append, headingRest, if_neg hopen, if_neg hclose, if_neg hgoes, ih hdepth hus,
      List.length_cons]
    omega
  | @parentheses outside u w _ _ ihu ihw =>
    obtain ⟨o, us, rfl, ho, hus⟩ := List.map_eq_cons_iff.1 hks
    obtain ⟨us, vs, rfl, hu, hvs⟩ := List.map_eq_append_iff.1 hus
    obtain ⟨c, vs, rfl, hc, hv⟩ := List.map_eq_cons_iff.1 hvs
    -- Within a pair the skip is one deeper, and no semicolon counts there.
    have hother : symbol .closeParen ≠ symbol .openParen := nofun
    rw [List.cons_append, headingRest, if_pos ho, List.append_assoc,
      ihu (fun hzero => absurd hzero (Nat.succ_ne_zero depth)) hu, List.cons_append, headingRest, hc,
      if_neg hother, if_pos rfl, Nat.succ_sub_one, ihw hdepth hv, List.length_cons,
      List.length_append, List.length_cons]
    omega

/-- A heading is skipped as a whole, and no more than that. -/
theorem headingRest_of_isHeading {text : String} {us ts : List Token}
    (h : IsHeading text (us.map Token.kind)) : headingRest 0 (us ++ ts) = us.length := by
  generalize hks : us.map Token.kind = ks at h
  obtain ⟨hw⟩ := h
  obtain ⟨n, us, rfl, hn, hus⟩ := List.map_eq_cons_iff.1 hks
  obtain ⟨vs, last, rfl, rfl, hlast⟩ := List.map_eq_append_iff.1 hus
  obtain ⟨t, rfl, ht⟩ := List.map_eq_singleton_iff.1 hlast
  -- The semicolon behind the name and the brackets ends the heading.
  have hsemicolon : headingRest 0 (t :: ts) = 1 := by
    rw [headingRest, ht]
    rfl
  have hname : ∀ rest, headingRest 0 (n :: rest) = headingRest 0 rest + 1 := by
    intro rest
    rw [headingRest, hn]
    rfl
  rw [List.cons_append, hname, List.append_assoc, List.singleton_append,
    headingRest_of_balanced hw fun _ _ hk => hk, hsemicolon, List.length_cons, List.length_append,
    List.length_singleton]

/-- With further tokens behind it, no token is the first one of the footer. -/
theorem isFooter_append {us ts : List Token} (hus : us ≠ []) (hts : 3 ≤ ts.length) :
    isFooter (us ++ ts) = false := by
  have hlen : 3 < (us ++ ts).length := by
    have hpos := List.length_pos_iff.2 hus
    rw [List.length_append]
    omega
  unfold isFooter
  split
  · next heq =>
    rw [heq] at hlen
    exact absurd hlen (Nat.lt_irrefl 3)
  · rfl

/-- The name of a procedure is repeated where its closing tokens stand. -/
theorem isProcedureEnd_iff {text : String} {ts : List Token} :
    isProcedureEnd (some text) ts = true ↔ procedureEnd text <+: ts.map Token.kind := by
  unfold isProcedureEnd procedureEnd
  constructor
  · intro h
    split at h
    · simp only [Bool.and_eq_true, beq_iff_eq, Option.any_some] at h
      obtain ⟨⟨he, hn⟩, hs⟩ := h
      rw [List.map_cons, List.map_cons, List.map_cons, he, hn, hs]
      exact ⟨_, rfl⟩
    · cases h
  · rintro ⟨rest, hrest⟩
    obtain ⟨e, ts, rfl, he, hts⟩ := List.map_eq_cons_iff.1 hrest.symm
    obtain ⟨n, ts, rfl, hn, hts⟩ := List.map_eq_cons_iff.1 hts
    obtain ⟨s, ts, rfl, hs, -⟩ := List.map_eq_cons_iff.1 hts
    simp [he, hn, hs]

/-- The closing tokens of a procedure do not begin in its body: they would have to end there, too. -/
theorem procedureEnd_not_prefix {text : String} {k : Token.Kind} {v w : List Token.Kind}
    (h : ¬ procedureEnd text <:+: k :: v) :
    ¬ procedureEnd text <+: k :: (v ++ (procedureEnd text ++ w)) := by
  intro hbegins
  apply h
  match v, hbegins with
  | [], hbegins =>
    -- the END behind it would have to be a name
    obtain ⟨-, hbegins⟩ := List.cons_prefix_cons.1 hbegins
    cases (List.cons_prefix_cons.1 hbegins).1
  | [n], hbegins =>
    -- the END behind them would have to be a semicolon
    obtain ⟨-, hbegins⟩ := List.cons_prefix_cons.1 hbegins
    obtain ⟨-, hbegins⟩ := List.cons_prefix_cons.1 hbegins
    cases (List.cons_prefix_cons.1 hbegins).1
  | n :: s :: v, hbegins =>
    obtain ⟨hk, hbegins⟩ := List.cons_prefix_cons.1 hbegins
    obtain ⟨hn, hbegins⟩ := List.cons_prefix_cons.1 hbegins
    obtain ⟨hs, -⟩ := List.cons_prefix_cons.1 hbegins
    rw [← hk, ← hn, ← hs]
    exact (List.prefix_append (procedureEnd text) v).isInfix

/-- A body is skipped with its closing tokens, and no more than that. -/
theorem procedureBody_of_end {text : String} {us vs ts : List Token}
    (hus : ¬ procedureEnd text <:+: us.map Token.kind)
    (hvs : vs.map Token.kind = procedureEnd text) :
    procedureBody (some text) (us ++ (vs ++ ts)) = us.length + vs.length := by
  have hlen : vs.length = 3 := by
    rw [← List.length_map (f := Token.kind), hvs]
    rfl
  -- By induction on what is in front of the end of the procedure.
  induction us with
  | nil =>
    have hend : isProcedureEnd (some text) (vs ++ ts) = true := by
      rw [isProcedureEnd_iff, List.map_append, hvs]
      exact List.prefix_append _ _
    match vs, hvs with
    | [e, n, s], hvs =>
      have hs : s.kind = symbol .semicolon := by
        rw [procedureEnd, List.map_cons, List.map_cons, List.map_cons] at hvs
        exact (List.cons.inj (List.cons.inj (List.cons.inj hvs).2).2).1
      -- The end of a procedure has a semicolon where the footer of a module has a period.
      have hfooter : isFooter (e :: n :: s :: ts) = false := by
        cases ts with
        | nil => simp [isFooter, hs]
        | cons t ts => rfl
      rw [List.nil_append, List.cons_append, List.cons_append, List.cons_append, List.nil_append,
        procedureBody, hfooter, if_neg Bool.false_ne_true]
      exact if_pos hend
  | cons t us ih =>
    have hfooter : isFooter ((t :: us) ++ (vs ++ ts)) = false := by
      refine isFooter_append (List.cons_ne_nil t us) ?_
      rw [List.length_append]
      omega
    have hend : ¬ isProcedureEnd (some text) (t :: (us ++ (vs ++ ts))) = true := by
      rw [isProcedureEnd_iff, List.map_cons, List.map_append, List.map_append, hvs]
      exact procedureEnd_not_prefix hus
    -- The end that is looked for comes no earlier in what is left.
    have hrest : ¬ procedureEnd text <:+: us.map Token.kind := by
      intro h
      exact hus (h.trans (List.suffix_cons t.kind _).isInfix)
    rw [List.cons_append] at hfooter ⊢
    rw [procedureBody, hfooter, if_neg Bool.false_ne_true, if_neg hend, ih hrest, List.length_cons]
    omega

/-- All statements are skipped, and the footer is not. -/
theorem beforeFooter_append {us f : List Token} {foot : Ident}
    (hf : IsFooter (f.map Token.kind) foot) : beforeFooter (us ++ f) = us.length := by
  generalize hks : f.map Token.kind = ks at hf
  obtain ⟨⟨name⟩⟩ := hf
  have hlen : f.length = 3 := by
    rw [← List.length_map (f := Token.kind), hks]
    rfl
  -- The footer is the last of the tokens, so no token in front of it begins it.
  induction us with
  | nil =>
    match f, hks with
    | [e, n, p], hks =>
      rw [List.map_cons, List.map_cons, List.map_cons] at hks
      have he := (List.cons.inj hks).1
      have hn := (List.cons.inj (List.cons.inj hks).2).1
      have hp := (List.cons.inj (List.cons.inj (List.cons.inj hks).2).2).1
      have hfooter : isFooter [e, n, p] = true := by
        simp [isFooter, he, hn, hp, Token.Kind.isName]
      rw [List.nil_append, beforeFooter, hfooter]
      rfl
  | cons t us ih =>
    have hfooter := isFooter_append (List.cons_ne_nil t us) hlen.ge
    rw [List.cons_append] at hfooter ⊢
    rw [beforeFooter, hfooter, if_neg Bool.false_ne_true, ih, List.length_cons]

end Skip

/-! ## Cursors behind what is skipped -/

namespace Cursor

variable {c : Cursor} {head : Token} {us ts : List Token}

/-- Behind a procedure is what comes behind it in the source. -/
theorem rest_afterProcedure {inDefinition : Bool} (hc : c.rest = head :: (us ++ ts))
    (h : IsProcedure inDefinition (us.map Token.kind)) : (c.afterProcedure inDefinition).rest = ts := by
  have hadvance : c.advance.rest = us ++ ts := by rw [rest_advance, hc, List.tail_cons]
  generalize hks : us.map Token.kind = ks at h
  -- In a definition module there is a heading only.
  cases h with
  | @heading text w hw =>
    subst hks
    rw [afterProcedure, if_pos rfl, rest_skip, hadvance, Skip.headingRest_of_isHeading hw,
      List.drop_left]
  | @withBody text u v hu hv =>
    obtain ⟨us, vs, rfl, rfl, hvs⟩ := List.map_eq_append_iff.1 hks
    obtain ⟨vs, ws, rfl, rfl, hws⟩ := List.map_eq_append_iff.1 hvs
    have hheading : Skip.headingRest 0 (us ++ (vs ++ (ws ++ ts))) = us.length :=
      Skip.headingRest_of_isHeading hu
    rw [List.append_assoc, List.append_assoc] at hadvance
    -- The name of the procedure stands behind its keyword, and it has to come back at the end.
    have hname : c.advance.nameHere = some text := by
      generalize hks : us.map Token.kind = ks at hu
      obtain ⟨-⟩ := hu
      obtain ⟨n, us, rfl, hn, -⟩ := List.map_eq_cons_iff.1 hks
      rw [nameHere, kind, hadvance, List.cons_append]
      simp only [hn]
    rw [afterProcedure, if_neg Bool.false_ne_true, hname, rest_skip, rest_skip, hadvance, hheading,
      List.drop_left, Skip.procedureBody_of_end hv hws, ← List.length_append, ← List.append_assoc,
      List.drop_left]

theorem rest_atFooter {foot : Ident} (hc : c.rest = us ++ ts) (hf : IsFooter (ts.map Token.kind) foot) :
    c.atFooter.rest = ts := by
  rw [atFooter, rest_skip, hc, Skip.beforeFooter_append hf, List.drop_left]

end Cursor

end Modula

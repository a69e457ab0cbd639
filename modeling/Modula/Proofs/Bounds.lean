import Modula.Proofs.Abreast.Chain
import Modula.Proofs.Recovery.Counters
import Modula.Proofs.Settling.Unit
/-!
# Reading ends, and within bounds

  Whatever the tokens are, and whatever is asked for with whatever options, reading comes to an end and
  does not leave the tokens (`reading_ends`).  There are four parts to it.

  * **Repetitions settle.**  No loop and no nesting of readers ends for the sole reason that its budget
    is used up (`Parser.RepetitionsSettle`, `Recovering.RepetitionsSettle`).
  * **Recovery gets ahead.**  Where reading goes on after an error is behind the beginning of what is
    broken (`RecoveryAdvances`), although it may be in front of the place where the error arose.
  * **Positions are indexes.**  A cursor over the tokens stands at one of them, and no reader leads
    anywhere else (`PositionsHold`).
  * **Skips count.**  The counter of a skip never goes below zero (`SkipsCount`).
-/

namespace Modula

open Token.Kind (word symbol)

/-! ## Positions -/

namespace Cursor

variable {tokens : List Token} {c d : Cursor}

theorem lt_of_remaining_lt (hle : c ≤ d) (h : d.remaining < c.remaining) : c < d :=
  lt_of_le_not_ge hle fun hge => Nat.not_le_of_lt h (remaining_le_of_le hge)

theorem lt_of_advance_le (hc : c.kind ≠ .eof) (h : c.advance ≤ d) : c < d :=
  lt_of_remaining_lt (c.le_advance.trans h) (remaining_lt_of_advance_le hc h)

theorem remaining_lt_of_lt (h : c < d) : d.remaining < c.remaining := by
  by_contra hle
  exact h.not_ge (le_of_remaining_le h.le le_rfl (Nat.le_of_not_lt hle))

section

variable (h : ofTokens tokens ≤ c)

include h

theorem token_at_place : (withStop tokens)[c.place tokens]? = some c.token := by
  have hplace := token_at h
  obtain ⟨rest, hrest⟩ := ofTokens_prefix tokens
  rw [← hrest, place, List.getElem?_append_left (List.getElem?_eq_some_iff.1 hplace).1]
  exact hplace

theorem place_lt_length : c.place tokens < (withStop tokens).length :=
  (List.getElem?_eq_some_iff.1 (token_at_place h)).1

theorem place_lt_place (hlt : c < d) : c.place tokens < d.place tokens := by
  have hcount := place_add_remaining h
  have hcount' := place_add_remaining (h.trans hlt.le)
  have hremaining := remaining_lt_of_lt hlt
  omega

end

theorem lt_resume {L : Language Token.Kind} {construct : Construct} {α : Type} {item : Parser α}
    {e : SyntaxError} {c' : Cursor} (hi : item.Tracks L)
    (hresume : Resumes (fun k => k.isName = true) L resume) (hc : c.kind.isName = true)
    (h : item construct c = .error e c') : c < c.resume c' := by
  obtain ⟨d, hd, -, -, hres, hlt⟩ := hresume hc ((hi construct c).fails h)
  exact lt_of_remaining_lt (hd.trans hres) hlt

/-- Each call begins and ends at a cursor over the tokens. -/
theorem exists_of_mem_calls {options : Options} {requests : List Request} {call : Call}
    (h : ofTokens tokens ≤ c) (hcall : call ∈ c.calls tokens options requests) :
    ∃ d d', ofTokens tokens ≤ d ∧ d ≤ d' ∧
      call.start = d.place tokens ∧ call.stop = d'.place tokens := by
  induction requests generalizing c with
  | nil => cases hcall
  | cons request more ih =>
    have hle := c.answer_le options request
    rcases List.mem_cons.1 hcall with rfl | hcall
    · exact ⟨c, _, h, hle, rfl, rfl⟩
    · exact ih (h.trans hle) hcall

end Cursor

/-- Each note lets reading go on behind the place where it went on after the note before it. -/
theorem Trail.resumptions_pairwise {c d : Cursor} {log : List Recovery} (h : Trail c log d) :
    (∀ r ∈ log, r.resumption < c.remaining) ∧
      log.Pairwise fun r later => later.resumption < r.resumption := by
  induction h with
  | done _ => exact ⟨by simp, .nil⟩
  | noted hd he hres hr hlt _ ih =>
    obtain ⟨hbound, hpairwise⟩ := ih
    rw [← hr] at hlt hbound
    exact ⟨List.forall_mem_cons.2 ⟨hlt, fun r hr => (hbound r hr).trans hlt⟩,
      List.pairwise_cons.2 ⟨hbound, hpairwise⟩⟩

/-! ## Readers of modules go forward -/

namespace Recovering

variable {α : Type}

/-- Wherever the reader is begun, it does not go back, whether it ends with a value or with an error. -/
def Forward (p : Recovering α) : Prop := ∀ options s,
  match p options s with
  | .ok _ s' => s.cursor ≤ s'.cursor
  | .error _ s' => s.cursor ≤ s'.cursor

theorem forward_of_follows {p : Recovering α}
    (h : ∀ options s, Follows s.cursor s.log (p options s)) : p.Forward := by
  intro options s
  have hfollows := h options s
  cases hrun : p options s with
  | ok a s' =>
    rw [hrun] at hfollows
    obtain ⟨_, -, htrail⟩ := hfollows
    exact htrail.le
  | error e s' =>
    rw [hrun] at hfollows
    obtain ⟨_, _, -, htrail, -, hle⟩ := hfollows
    exact htrail.le.trans hle

theorem Steady.forward {f : SyntaxError → SyntaxError} {p : Recovering α} (h : Steady f p) :
    p.Forward := forward_of_follows fun options s => (h s).follows options

end Recovering

/-! ## The parts -/

/-- Reading goes on behind the beginning of what is broken or passed over, be it at the end of a skip or
where a declaration is in the way, and behind the place where it went on the last time. -/
structure RecoveryAdvances : Prop where
  imports : ∀ c : Cursor, c.kind = word .IMPORT ∨ c.kind = word .FROM → c < c.afterImport
  declarations : ∀ c : Cursor, c.kind.isName = true → c < c.afterDeclaration
  constItems : ∀ construct (c : Cursor) e c', c.kind.isName = true →
    Parser.constItem construct c = .error e c' → c < c.resume c'
  typeItems : ∀ construct (c : Cursor) e c', c.kind.isName = true →
    Parser.typeItem construct c = .error e c' → c < c.resume c'
  variableSections : ∀ c : Cursor, c.kind = word .VAR → c < c.afterVariables
  procedures : ∀ (c : Cursor) headingOnly, c.kind = word .PROCEDURE →
    c < c.afterProcedure headingOnly
  statements : ∀ c : Cursor, c.kind = word .BEGIN → c < c.advance.atFooter
  notes : ∀ options (c : Cursor), (∀ r ∈ c.recoveries options, r.resumption < c.remaining) ∧
    (c.recoveries options).Pairwise fun r later => later.resumption < r.resumption

/-- A cursor over the tokens has an index among them, ahead means at a greater index, and whatever is
read leads from a cursor to one that is not behind it. -/
structure PositionsHold (tokens : List Token) (options : Options) (requests : List Request) : Prop where
  index : ∀ c, Cursor.ofTokens tokens ≤ c → c.place tokens < (Cursor.withStop tokens).length ∧
    (Cursor.withStop tokens)[c.place tokens]? = some c.token
  ahead : ∀ c d, Cursor.ofTokens tokens ≤ c → c < d → c.place tokens < d.place tokens
  steps : ∀ k bracket opener, Parser.advance.Forward ∧ (Parser.accept k).Forward ∧
    (Parser.expect k).Forward ∧ Parser.ident.Forward ∧ (Parser.close bracket opener).Forward
  nested : ∀ budget, (Parser.factorAt budget).Forward ∧ (Parser.typeAt budget).Forward ∧
    (Parser.entryAt budget).Forward
  phrases : Parser.expr.Forward ∧ Parser.type.Forward ∧ Parser.importClause.Forward ∧
    Parser.constItem.Forward ∧ Parser.typeItem.Forward ∧ Parser.definitionHeader.Forward ∧
    Parser.programHeader.Forward ∧ Parser.footer.Forward
  modules : Recovering.allImports.Forward ∧ Recovering.allDeclarations.Forward ∧
    Recovering.block.Forward ∧ Recovering.unit.Forward
  errors : ∀ c : Cursor, ∀ e ∈ c.syntaxErrors options, ∃ d, c ≤ d ∧ e.StandsAt d
  calls : ∀ call ∈ (Cursor.ofTokens tokens).calls tokens options requests,
    call.start < (Cursor.withStop tokens).length ∧ call.stop < (Cursor.withStop tokens).length

/-- A counter that could go below zero gives the lengths of skips, and does not go there. -/
structure SkipsCount : Prop where
  declaration : ∀ ts, (Skip.run Skip.declarationMove 0 ts).1 = Skip.declarationRest 0 ts ∧
    ∀ depth ∈ (Skip.run Skip.declarationMove 0 ts).2, 0 ≤ depth
  variableSections : ∀ ts, (Skip.run Skip.variablesMove 0 ts).1 = Skip.variablesRest 0 ts ∧
    ∀ depth ∈ (Skip.run Skip.variablesMove 0 ts).2, 0 ≤ depth
  heading : ∀ ts, (Skip.run Skip.headingMove 0 ts).1 = Skip.headingRest 0 ts ∧
    ∀ depth ∈ (Skip.run Skip.headingMove 0 ts).2, 0 ≤ depth

theorem recovery_advances : RecoveryAdvances where
  imports c hc := by
    refine Cursor.lt_of_advance_le ?_ c.advance_le_afterImport
    rcases hc with hc | hc <;> simp [hc]
  declarations c hc := Cursor.lt_of_advance_le (ne_eof_of_isName hc) c.advance_le_afterDeclaration
  constItems _ _ _ _ hc h := Cursor.lt_resume Parser.constItem_tracks
    (resume_resumes fun _ => .of_isConstItem) hc h
  typeItems _ _ _ _ hc h := Cursor.lt_resume Parser.typeItem_tracks
    (resume_resumes fun _ => .of_isTypeItem) hc h
  variableSections c hc := Cursor.lt_of_advance_le (hc ▸ nofun) c.advance_le_afterVariables
  procedures c headingOnly hc :=
    Cursor.lt_of_advance_le (hc ▸ nofun) (c.advance_le_afterProcedure headingOnly)
  statements c hc := Cursor.lt_of_advance_le (hc ▸ nofun) c.advance.le_atFooter
  notes options c := by
    obtain ⟨_, _, htrail, -⟩ := c.exists_trail options
    exact htrail.resumptions_pairwise

theorem skips_count : SkipsCount where
  declaration := Skip.declaration_counts.run 0
  variableSections := Skip.variables_counts.run 0
  heading := Skip.heading_counts.run 0

theorem positions_hold (tokens : List Token) (options : Options) (requests : List Request) :
    PositionsHold tokens options requests where
  index _ hc := ⟨Cursor.place_lt_length hc, Cursor.token_at_place hc⟩
  ahead _ _ hc hlt := Cursor.place_lt_place hc hlt
  steps k bracket opener := ⟨Parser.advance_forward, Parser.accept_forward k,
    Parser.expect_forward k, Parser.ident_tracks.forward, (Parser.close_tracks bracket opener).forward⟩
  nested budget := ⟨(Parser.factorAt_tracks budget).forward,
    (Parser.typeAt_tracks budget).1.forward, (Parser.typeAt_tracks budget).2.forward⟩
  phrases := ⟨Parser.expr_tracks.forward, Parser.type_tracks.forward,
    Parser.importClause_tracks.forward, Parser.constItem_tracks.forward,
    Parser.typeItem_tracks.forward, Parser.definitionHeader_tracks.forward,
    Parser.programHeader_tracks.forward, Parser.footer_tracks.forward⟩
  modules := ⟨Recovering.allImports_steady.forward, Recovering.allDeclarations_steady.forward,
    Recovering.block_steady.forward,
    Recovering.forward_of_follows fun options s => (Recovering.unit_orderly s).follows options⟩
  errors c := c.syntaxErrors_standAt options
  calls call hcall := by
    obtain ⟨c, c', hc, hle, hstart, hstop⟩ := Cursor.exists_of_mem_calls le_rfl hcall
    rw [hstart, hstop]
    exact ⟨Cursor.place_lt_length hc, Cursor.place_lt_length (hc.trans hle)⟩

/-- Reading ends and stays within bounds, for all tokens and options and whatever is asked for. -/
theorem reading_ends (tokens : List Token) (options : Options) (requests : List Request) :
    (Parser.RepetitionsSettle ∧ Recovering.RepetitionsSettle) ∧ RecoveryAdvances ∧
      PositionsHold tokens options requests ∧ SkipsCount :=
  ⟨⟨Parser.repetitions_settle, Recovering.repetitions_settle⟩, recovery_advances,
    positions_hold tokens options requests, skips_count⟩

end Modula

import Mathlib.Data.List.Chain
import Modula.Proofs.Recovery.Fault
/-!
# Skipping variables

  A section of variables is passed over without being read, so its end has to be told from its tokens:
  it is in front of the next section, of the body or of the `END` of the module.

  Inside the types of the variables there must be nothing that looks like such an end.  An `END` that
  closes a record is told by its depth, and a procedure type is told from a procedure by the name that
  does not follow it (`IsType.unmarked`).  But a `VAR` in front of a parameter looks like the `VAR` of
  another section, at any depth.  So the skip ends where it should if there is none
  (`Skip.variablesRest_of_repeated`), and goes wrong if there is one.
-/

namespace Modula

open Token.Kind (word symbol)

/-! ## Marks in types -/

/-- Tokens that end a section of variables, or a name behind the word `PROCEDURE`, do not occur, but the
word `VAR` may. -/
structure Unmarked (w : List Token.Kind) : Prop where
  marks : ∀ k ∈ w, k.endsVariables = true → k = word .VAR
  chain : w.IsChain fun a b => a = word .PROCEDURE → b.isName = false

/-- The token is neither a mark nor the beginning of one. -/
def Token.Kind.isQuiet (k : Token.Kind) : Bool := !(k.endsVariables || k == word .PROCEDURE)

theorem Token.Kind.isQuiet_iff {k : Token.Kind} :
    k.isQuiet = true ↔ k.endsVariables = false ∧ k ≠ word .PROCEDURE := by
  simp [isQuiet]

namespace Unmarked

variable {u v w : List Token.Kind} {k : Token.Kind}

theorem nil : Unmarked [] := ⟨nofun, .nil⟩

theorem append (hu : Unmarked u) (hv : Unmarked v) (hname : (upcoming v).isName = false) :
    Unmarked (u ++ v) := by
  constructor
  · intro k hk
    rcases List.mem_append.1 hk with hk | hk
    · exact hu.marks k hk
    · exact hv.marks k hk
  · refine List.isChain_append.2 ⟨hu.chain, hv.chain, fun a _ b hb _ => ?_⟩
    rw [upcoming, Option.mem_def.1 hb] at hname
    exact hname

/-- In front of a name may stand anything but the word `PROCEDURE`. -/
theorem cons (hk : k.endsVariables = true → k = word .VAR) (hp : k ≠ word .PROCEDURE)
    (hw : Unmarked w) : Unmarked (k :: w) :=
  ⟨List.forall_mem_cons.2 ⟨hk, hw.marks⟩,
    List.isChain_cons.2 ⟨fun _ _ heq => absurd heq hp, hw.chain⟩⟩

theorem cons_quiet (hk : k.isQuiet = true) (hw : Unmarked w) : Unmarked (k :: w) := by
  obtain ⟨hends, hp⟩ := Token.Kind.isQuiet_iff.1 hk
  exact cons (fun h => absurd (hends.symm.trans h) Bool.false_ne_true) hp hw

theorem of_isQuiet (hw : ∀ k ∈ w, k.isQuiet = true) : Unmarked w := by
  induction w with
  | nil => exact nil
  | cons k w ih =>
    obtain ⟨hk, hw⟩ := List.forall_mem_cons.1 hw
    exact cons_quiet hk (ih hw)

/-- Two parts with a token between them that is no name. -/
theorem between (hu : Unmarked u) (hk : k.isQuiet = true) (hname : k.isName = false)
    (hv : Unmarked v) : Unmarked (u ++ k :: v) := append hu (cons_quiet hk hv) hname

end Unmarked

/-- There are no marks in expressions. -/
theorem isQuiet_exprClosed : ExprClosed fun w => ∀ k ∈ w, k.isQuiet = true := by
  refine exprClosed_forall_mem (fun k => ?_) (by decide)
  unfold Token.Kind.isExprPart Operator.ofKind?
  split <;> first | exact fun _ => rfl | split <;> first | exact fun _ => rfl | nofun

section

variable {w : List Token.Kind}

theorem IsSimpleType.unmarked {t : TypeExpr} (hw : IsSimpleType w t) : Unmarked w := by
  have hexpr := isQuiet_exprClosed
  cases hw with
  | named hw => exact .of_isQuiet (hexpr.qualident hw)
  | enumeration hw =>
    exact .cons_quiet rfl (.between (.of_isQuiet (hexpr.identList hw)) rfl rfl .nil)
  | subrange hu hv =>
    exact .cons_quiet rfl (.between (.of_isQuiet (hexpr.expr hu)) rfl rfl
      (.between (.of_isQuiet (hexpr.expr hv)) rfl rfl .nil))

theorem IsFormal.unmarked {p : FormalType} (hw : IsFormal w p) : Unmarked w := by
  cases hw with
  | @formal isVar isOpenArray w _ hq =>
    have hname : Unmarked w := .of_isQuiet (isQuiet_exprClosed.qualident hq)
    have harray : Unmarked ((if isOpenArray then [word .ARRAY, word .OF] else []) ++ w) := by
      cases isOpenArray
      · exact hname
      · exact .cons_quiet rfl (.cons_quiet rfl hname)
    rw [formalMode, List.append_assoc]
    cases isVar
    · exact harray
    · exact .cons (fun _ => rfl) nofun harray

theorem IsFormals.unmarked {f : FormalTypes} (hw : IsFormals w f) : Unmarked w := by
  cases hw with
  | @formals u v _ _ hu hv =>
    -- The parameters are separated by commas, which mark nothing.
    have hparams : Unmarked u := by
      cases hu with
      | none => exact .nil
      | some hu =>
        induction hu with
        | one hp => exact hp.unmarked
        | more hp _ ih => exact hp.unmarked.between rfl rfl ih
    have hresult : Unmarked v := by
      cases hv with
      | none => exact .nil
      | some hq => exact .cons_quiet rfl (.of_isQuiet (isQuiet_exprClosed.qualident hq))
    exact .cons_quiet rfl (hparams.between rfl rfl hresult)

theorem IsTag.isQuiet {t : Option Ident × Qualident} (hw : IsTag w t) :
    ∀ k ∈ w, k.isQuiet = true := by
  have hexpr := isQuiet_exprClosed
  cases hw with
  | unnamed hw => exact List.forall_mem_cons.2 ⟨rfl, hexpr.qualident hw⟩
  | named hu hw =>
    exact List.forall_mem_append.2
      ⟨hexpr.ident hu, List.forall_mem_cons.2 ⟨rfl, hexpr.qualident hw⟩⟩
  | typeOnly hw => exact hexpr.qualident hw

/-- There are no marks in types. -/
theorem IsType.unmarked {t : TypeExpr} (hw : IsType w t) : Unmarked w := by
  have hexpr := isQuiet_exprClosed
  -- By induction over types, field lists and variants at the same time.
  refine @IsType.rec (fun w _ _ => Unmarked w) (fun w _ _ => Unmarked w) (fun w _ _ => Unmarked w)
    (fun w _ _ => Unmarked w) (fun w _ _ => Unmarked w ∧ (upcoming w).isName = false)
    (fun w _ _ => Unmarked w) ?simple ?array ?record ?set ?pointer ?procedure ?procedureWith
    ?one ?last ?more ?fields ?variants ?arm ?none ?some ?firstArm ?arms _ _ hw
  case simple => exact fun hw => hw.unmarked
  case array =>
    intro u v _ _ hu _ hv
    have hindexes : Unmarked u := by
      induction hu with
      | one hi => exact hi.unmarked
      | more hi _ ih => exact hi.unmarked.between rfl rfl ih
    exact .cons_quiet rfl (hindexes.between rfl rfl hv)
  case record => exact fun _ hw => .cons_quiet rfl (hw.between rfl rfl .nil)
  case set => exact fun hw => .cons_quiet rfl (.cons_quiet rfl hw.unmarked)
  case pointer => exact fun _ hw => .cons_quiet rfl (.cons_quiet rfl hw)
  -- A `PROCEDURE` without parameters is followed by no name, as nothing is left of the type.
  case procedure => exact ⟨by simp [Token.Kind.endsVariables], List.isChain_singleton _⟩
  case procedureWith =>
    intro w _ hw
    have hhead : Unmarked [word .PROCEDURE] :=
      ⟨by simp [Token.Kind.endsVariables], List.isChain_singleton _⟩
    refine hhead.append hw.unmarked ?_
    cases hw with
    | formals _ _ => rfl
  case last => exact fun _ hw => hw.between rfl rfl .nil
  case more => exact fun _ _ hu hv => hu.between rfl rfl hv
  case fields => exact fun hu _ hv => (Unmarked.of_isQuiet (hexpr.identList hu)).between rfl rfl hv
  case variants =>
    intro t u v _ _ _ _ ht _ _ hu hv
    have hend : Unmarked (v ++ [word .END]) := hv.1.between rfl rfl .nil
    -- What follows the variants is not a name, be it an `ELSE` or the `END`.
    have hname : (upcoming (v ++ [word .END])).isName = false := by
      cases v with
      | nil => rfl
      | cons k v => exact hv.2
    exact .cons_quiet rfl ((Unmarked.of_isQuiet ht.isQuiet).between rfl rfl (hu.append hend hname))
  case arm =>
    intro u v _ _ hu _ hv
    have hlabels : ∀ k ∈ u, k.isQuiet = true :=
      hu.closed (P := fun w => ∀ k ∈ w, k.isQuiet = true) hexpr.append (hexpr.token rfl)
        fun _ _ => hexpr.element
    exact (Unmarked.of_isQuiet hlabels).between rfl rfl hv
  case none => exact ⟨.nil, rfl⟩
  case some => exact fun _ hw => ⟨.cons_quiet rfl hw, rfl⟩
  case arms => exact fun _ _ hu hv => hu.between rfl rfl hv
  all_goals exact fun _ hw => hw

end

/-! ## The skip -/

/-- A token that may come behind a section: another one begins there, or the body or the end of the
module. -/
def FollowsSection (k : Token.Kind) : Prop := k.endsVariables = true ∨ k = word .END

theorem Token.Kind.not_bracket_of_endsVariables (k : Token.Kind) (h : k.endsVariables = true) :
    k.isOpener = false ∧ k.isBracketCloser = false := by
  revert h
  unfold endsVariables
  split <;> intro h
  all_goals first | exact ⟨rfl, rfl⟩ | cases h

namespace Skip

variable {t : Token} {us ts : List Token} {depth n : Nat}

theorem nextIsName_eq (ts : List Token) : nextIsName ts = (upcoming (ts.map Token.kind)).isName := by
  cases ts <;> rfl

/-- Where the skip of a declaration goes on, the skip of variables does, unless there is a mark. -/
theorem variablesRest_cons (h : t.kind.depthAfter depth = some n)
    (hends : t.kind.endsVariables = false)
    (hname : t.kind = word .PROCEDURE → (upcoming (ts.map Token.kind)).isName = false) :
    variablesRest depth (t :: ts) = variablesRest n ts + 1 := by
  have hprocedure : ¬ (t.kind = word .PROCEDURE ∧ nextIsName ts = true) := by
    rintro ⟨hp, hnext⟩
    rw [nextIsName_eq, hname hp] at hnext
    cases hnext
  cases depth <;> rw [Token.Kind.depthAfter] at h <;>
    rw [variablesRest, hends, if_neg hprocedure] <;> split_ifs at h ⊢ <;> cases h <;>
    first | rfl | simp_all

theorem variablesRest_append (h : depthBehind depth (us.map Token.kind) = some n)
    (hends : ∀ u ∈ us, u.kind.endsVariables = false)
    (hchain : (us.map Token.kind ++ [upcoming (ts.map Token.kind)]).IsChain fun a b =>
      a = word .PROCEDURE → b.isName = false) :
    variablesRest depth (us ++ ts) = us.length + variablesRest n ts := by
  -- By induction on the tokens; the depth is told along with them.
  induction us generalizing depth with
  | nil =>
    cases h
    exact (Nat.zero_add _).symm
  | cons u us ih =>
    rw [List.map_cons, depthBehind_cons, Option.bind_eq_some_iff] at h
    obtain ⟨m, hu, hus⟩ := h
    obtain ⟨hendsu, hendsus⟩ := List.forall_mem_cons.1 hends
    obtain ⟨hnext, hchain⟩ := List.isChain_cons.1 hchain
    -- The token behind a `PROCEDURE` may be the first one that is left.
    have hname : u.kind = word .PROCEDURE →
        (upcoming ((us ++ ts).map Token.kind)).isName = false := by
      intro hp
      refine hnext _ ?_ hp
      cases us <;> rfl
    rw [List.cons_append, variablesRest_cons hu hendsu hname, ih hus hendsus hchain,
      List.length_cons]
    omega

theorem variablesRest_semicolon (ht : t.kind = symbol .semicolon) :
    variablesRest 0 (t :: ts) = variablesRest 0 ts + 1 := by
  rw [variablesRest, ht]
  rfl

/-- One declaration of variables is skipped as a whole. -/
theorem variablesRest_of_isVariable {a : IdentList × TypeExpr}
    (h : IsVariable (us.map Token.kind) a) :
    variablesRest 0 (us ++ ts) = us.length + variablesRest 0 ts := by
  generalize hks : us.map Token.kind = ks at h
  cases h with
  | @declared u v _ _ hu hv hvar =>
    have hexpr := isQuiet_exprClosed
    rw [← List.cons_append, ← List.append_assoc] at hks
    obtain ⟨us, last, rfl, hus, hlast⟩ := List.map_eq_append_iff.1 hks
    obtain ⟨t, rfl, ht⟩ := List.map_eq_singleton_iff.1 hlast
    -- The declaration is balanced, and its semicolon stands at depth zero.
    have hdepth : KeepsDepth 0 (us.map Token.kind) := by
      rw [hus]
      exact (keepsDepth_exprClosed.identList hu).append (.cons (.of_isPlain rfl) hv.keepsDepth)
    have hunmarked : Unmarked (us.map Token.kind) := by
      rw [hus]
      exact (Unmarked.of_isQuiet (hexpr.identList hu)).between rfl rfl hv.unmarked
    have hends : ∀ t ∈ us, t.kind.endsVariables = false := by
      intro t ht
      -- Only a `VAR` could end the section within a declaration, and there is none.
      by_contra hmark
      have hkind := hunmarked.marks _ (List.mem_map_of_mem ht) (by simpa using hmark)
      have hmem : word .VAR ∈ u ++ symbol .colon :: v := by
        rw [← hus, ← hkind]
        exact List.mem_map_of_mem ht
      rcases List.mem_append.1 hmem with hmem | hmem
      · have hquiet := hexpr.identList hu _ hmem
        cases hquiet
      · rcases List.mem_cons.1 hmem with hcolon | hmem
        · cases hcolon
        · exact hvar hmem
    have hchain : (us.map Token.kind ++ [upcoming ((t :: ts).map Token.kind)]).IsChain fun a b =>
        a = word .PROCEDURE → b.isName = false := by
      rw [List.map_cons, upcoming_cons, ht]
      exact (hunmarked.between rfl rfl .nil).chain
    rw [List.append_assoc, List.singleton_append, variablesRest_append (hdepth le_rfl) hends hchain,
      variablesRest_semicolon ht, List.length_append, List.length_singleton]
    omega

/-- A section of variables is skipped as a whole, and no more than that. -/
theorem variablesRest_of_repeated {l : List (IdentList × TypeExpr)}
    (h : Repeated IsVariable (us.map Token.kind) l)
    (hstop : FollowsSection (upcoming (ts.map Token.kind))) :
    variablesRest 0 (us ++ ts) = us.length := by
  generalize hks : us.map Token.kind = ks at h
  -- By induction on the declarations; the section ends behind the last one.
  induction h generalizing us with
  | none =>
    rw [List.map_eq_nil_iff.1 hks, List.nil_append, List.length_nil]
    cases ts with
    | nil => rfl
    | cons t ts =>
      rw [List.map_cons, upcoming_cons] at hstop
      rw [variablesRest]
      rcases hstop with hends | hend
      · obtain ⟨hopener, hcloser⟩ := t.kind.not_bracket_of_endsVariables hends
        rw [hopener, hcloser, hends]
        rfl
      · rw [hend]
        rfl
  | more ha _ ih =>
    obtain ⟨us, vs, rfl, rfl, hvs⟩ := List.map_eq_append_iff.1 hks
    rw [List.append_assoc, variablesRest_of_isVariable ha, ih hvs, List.length_append]

end Skip

/-- Behind a section of variables is what comes behind it in the source. -/
theorem Cursor.rest_afterVariables {c : Cursor} {head : Token} {us ts : List Token}
    {l : List (IdentList × TypeExpr)} (hc : c.rest = head :: (us ++ ts))
    (h : Repeated IsVariable (us.map Token.kind) l)
    (hstop : FollowsSection (upcoming (ts.map Token.kind))) : c.afterVariables.rest = ts := by
  have hadvance : c.advance.rest = us ++ ts := by rw [rest_advance, hc, List.tail_cons]
  rw [afterVariables, rest_skip, hadvance, Skip.variablesRest_of_repeated h hstop, List.drop_left]

end Modula

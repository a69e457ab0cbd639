import Mathlib.Order.Basic
import Mathlib.Tactic.SplitIfs
import Modula.Proofs.Balance
import Modula.Proofs.Tracking
/-!
# How far skips go

  Cursors on the same tokens are ordered, `c ≤ d`, by what is still to be read.  This module tells where
  skips end in that order.

  * No skip goes backwards, and only the skip of statements may stay where it is.
  * A skip from the beginning of a sentence of the grammar does not end within the sentence, and also
    not within the part of it that a parser took before it failed (`PassesOver`).  So reading never goes
    on in front of an error (`resume_resumes`).
-/

namespace Modula

open Token.Kind (word symbol)

/-! ## The order of cursors

  Only cursors over the same tokens are compared.  The one that comes later has fewer tokens left, and
  this is what all inequalities below come down to. -/

namespace Cursor

/-- From one cursor over unread tokens to another one. -/
instance : Preorder Cursor where
  le c d := ∃ w, c.Reaches w d
  le_refl c := ⟨[], .refl c⟩
  le_trans _ _ _ := fun ⟨_, h₁⟩ ⟨_, h₂⟩ => ⟨_, h₁.trans h₂⟩

variable {c d d' : Cursor}

theorem Reaches.le {w : List Token.Kind} (h : c.Reaches w d) : c ≤ d := ⟨w, h⟩

/-- A parser that fails has moved forward, if at all. -/
theorem Fails.le {L : Language Token.Kind} {e : SyntaxError} (h : c.Fails L e d) : c ≤ d := by
  obtain ⟨_, _, _, hmid, -, -, hd, -⟩ := h
  exact hmid.le.trans hd.le

/-- The order in terms of tokens: the same end of the source, and fewer tokens left. -/
theorem le_iff_suffix : c ≤ d ↔ d.stop = c.stop ∧ d.rest <:+ c.rest := by
  constructor
  · rintro ⟨_, hstop, ts, hrest, rfl⟩
    exact ⟨hstop, ts, hrest.symm⟩
  · rintro ⟨hstop, ts, hrest⟩
    exact ⟨_, hstop, ts, hrest.symm, rfl⟩

/-- Counts of tokens left go down along the order. -/
theorem remaining_le_of_le (h : c ≤ d) : d.remaining ≤ c.remaining :=
  (le_iff_suffix.1 h).2.length_le

/-- What can be reached from one cursor is in order. -/
theorem le_of_remaining_le (hd : c ≤ d) (hd' : c ≤ d') (h : d'.remaining ≤ d.remaining) :
    d ≤ d' := by
  rw [le_iff_suffix] at hd hd' ⊢
  exact ⟨hd'.1.trans hd.1.symm, List.suffix_of_suffix_length_le hd'.2 hd.2 h⟩

/-- Ids do not matter to the order. -/
theorem le_withId (c : Cursor) (id : Nat) : c ≤ { c with nextId := id } :=
  (Reaches.of_rest rfl rfl).le

@[simp] theorem stop_advance (c : Cursor) : c.advance.stop = c.stop := by
  unfold advance
  split <;> rfl

/-- No skip leaves the source. -/
@[simp] theorem stop_skip (c : Cursor) (count : Nat) : (c.skip count).stop = c.stop := by
  induction count generalizing c with
  | zero => rfl
  | succ n ih => rw [skip, ih, stop_advance]

/-- Skips go forward, however far they are told to go. -/
theorem le_skip (c : Cursor) (count : Nat) : c ≤ c.skip count :=
  le_iff_suffix.2 ⟨stop_skip c count, by rw [rest_skip]; exact List.drop_suffix _ _⟩

theorem le_advance (c : Cursor) : c ≤ c.advance := le_skip c 1

/-- A token other than the end of the source is there to be read. -/
theorem atEnd_of_kind (h : c.kind ≠ .eof) : c.atEnd = false := by
  unfold kind at h
  unfold atEnd
  cases hr : c.rest with
  | nil => simp [hr] at h
  | cons t ts => rfl

/-- In front of the end there is a token left. -/
theorem remaining_pos (h : c.atEnd = false) : 0 < c.remaining := by
  rw [remaining, List.length_pos_iff]
  exact fun hnil => by simp [atEnd, hnil] at h

/-- There are fewer tokens behind the token at the cursor. -/
theorem remaining_lt_of_advance_le (hc : c.kind ≠ .eof) (h : c.advance ≤ d) :
    d.remaining < c.remaining := by
  have hpos := remaining_pos (atEnd_of_kind hc)
  have hle := remaining_le_of_le h
  have hadvance : c.advance.remaining = c.remaining - 1 := by
    rw [remaining, rest_advance, List.length_tail, remaining]
  omega

/-! ### Skips -/

/-- All skips but the one over statements pass the token that they begin at. -/
theorem advance_le_afterImport (c : Cursor) : c.advance ≤ c.afterImport := le_skip _ _

theorem advance_le_afterDeclaration (c : Cursor) : c.advance ≤ c.afterDeclaration := le_skip _ _

theorem advance_le_afterVariables (c : Cursor) : c.advance ≤ c.afterVariables := le_skip _ _

theorem advance_le_afterProcedure (c : Cursor) (headingOnly : Bool) :
    c.advance ≤ c.afterProcedure headingOnly := by
  unfold afterProcedure
  dsimp only
  -- with a body two skips follow each other
  split
  · exact le_skip _ _
  · exact (le_skip _ _).trans (le_skip _ _)

/-- The footer may be right there. -/
theorem le_atFooter (c : Cursor) : c ≤ c.atFooter := le_skip _ _

end Cursor

/-- Whether a broken import ends with the token, or before it. -/
def Token.Kind.endsBrokenImport (k : Token.Kind) : Bool := k == symbol .semicolon || k.endsImport

/-! ## Lengths of skips

  A skip is a count of tokens.  Over tokens that do not end it, it adds up. -/

namespace Skip

variable {t : Token} {us ts : List Token} {depth n : Nat}

/-- A skip goes on behind a token that does not end it. -/
theorem declarationRest_cons (h : t.kind.depthAfter depth = some n) :
    declarationRest depth (t :: ts) = declarationRest n ts + 1 := by
  -- both functions ask the same questions in the same order
  cases depth <;> rw [Token.Kind.depthAfter] at h <;> rw [declarationRest] <;>
    split_ifs at h ⊢ <;> cases h <;> first | rfl | simp_all

/-- The skip goes on behind tokens at the depth that they lead to, as long as none of them ends it. -/
theorem declarationRest_append (h : depthBehind depth (us.map Token.kind) = some n) :
    declarationRest depth (us ++ ts) = us.length + declarationRest n ts := by
  induction us generalizing depth with
  | nil =>
    cases h
    exact (Nat.zero_add _).symm
  | cons u us ih =>
    rw [List.map_cons, depthBehind_cons, Option.bind_eq_some_iff] at h
    obtain ⟨m, hu, hus⟩ := h
    rw [List.cons_append, declarationRest_cons hu, ih hus, List.length_cons]
    omega

/-- Outside of all brackets the skip ends behind a semicolon. -/
theorem declarationRest_semicolon (ht : t.kind = symbol .semicolon) :
    declarationRest 0 (t :: ts) = 1 := by
  rw [declarationRest, ht]
  rfl

/-- A skip ends behind the first semicolon that is not in brackets. -/
theorem declarationRest_of_balanced (h : depthBehind 0 (us.map Token.kind) = some 0)
    (ht : t.kind = symbol .semicolon) : declarationRest 0 (us ++ t :: ts) = us.length + 1 := by
  rw [declarationRest_append h, declarationRest_semicolon ht]

/-- The skip over an import needs no depth, for imports have no brackets. -/
theorem importRest_append (h : ∀ u ∈ us, u.kind.endsBrokenImport = false) :
    importRest (us ++ ts) = us.length + importRest ts := by
  induction us with
  | nil => exact (Nat.zero_add _).symm
  | cons u us ih =>
    obtain ⟨hu, hus⟩ := List.forall_mem_cons.1 h
    obtain ⟨hs, hends⟩ : u.kind ≠ symbol .semicolon ∧ u.kind.endsImport = false := by
      simpa [Token.Kind.endsBrokenImport] using hu
    rw [List.cons_append, importRest, if_neg hs, hends, if_neg Bool.false_ne_true, ih hus,
      List.length_cons]
    omega

/-- A skip ends behind the first semicolon. -/
theorem importRest_of_semicolon (h : ∀ u ∈ us, u.kind.endsBrokenImport = false)
    (ht : t.kind = symbol .semicolon) : importRest (us ++ t :: ts) = us.length + 1 := by
  rw [importRest_append h, importRest, if_pos ht]

end Skip

namespace Cursor

variable {c : Cursor}

/-- The first token of a broken declaration is skipped like the others. -/
theorem rest_afterDeclaration (hc : c.kind.isName = true) :
    c.afterDeclaration.rest = c.rest.drop (Skip.declarationRest 0 c.rest) := by
  rw [afterDeclaration, rest_skip, rest_advance]
  cases hr : c.rest with
  | nil => rfl
  | cons t ts =>
    have hname : t.kind.isName = true := by rwa [kind, hr] at hc
    rw [Skip.declarationRest_cons (Token.Kind.depthAfter_of_isName hname), List.tail_cons,
      List.drop_succ_cons]

/-- The word in front of an import does not end the skip, so it may be counted in. -/
theorem rest_afterImport (hc : c.kind = word .IMPORT ∨ c.kind = word .FROM) :
    c.afterImport.rest = c.rest.drop (Skip.importRest c.rest) := by
  rw [afterImport, rest_skip, rest_advance]
  cases hr : c.rest with
  | nil => rfl
  | cons t ts =>
    rw [kind, hr] at hc
    have hpart : t.kind.endsBrokenImport = false := by
      rcases hc with hc | hc <;> rw [show t.kind = _ from hc] <;> rfl
    have hskip := @Skip.importRest_append [t] ts (by simpa using hpart)
    rw [List.singleton_append, List.length_singleton, Nat.add_comm] at hskip
    rw [hskip, List.tail_cons, List.drop_succ_cons]

end Cursor

/-! ## Skips and sentences

  A skip that begins with a sentence goes over the sentence.  So it goes over the beginning of one as
  well, and a parser takes nothing else before it fails. -/

/-- An import ends with its first semicolon, and a skip does not end before that. -/
theorem IsImport.endsBrokenImport {w : List Token.Kind} {i : Import} (hw : IsImport w i) :
    ∃ u, w = u ++ [symbol .semicolon] ∧ ∀ k ∈ u, k.endsBrokenImport = false := by
  have hlist : ∀ {u l}, IsIdentList u l → ∀ k ∈ u, k.endsBrokenImport = false := by
    rintro _ _ ⟨hu⟩
    refine hu.closed (P := fun u => ∀ k ∈ u, k.endsBrokenImport = false)
      (fun u v hu hv => List.forall_mem_append.2 ⟨hu, hv⟩) (by simp; rfl) ?_
    rintro _ _ ⟨text⟩
    simp [Token.Kind.endsBrokenImport, Token.Kind.endsImport]
  cases hw with
  | @qualified u _ hu => exact ⟨word .IMPORT :: u, rfl, List.forall_mem_cons.2 ⟨rfl, hlist hu⟩⟩
  | @unqualified u v _ _ hu hv =>
    cases hu with
    | name text =>
      refine ⟨word .FROM :: .name text :: word .IMPORT :: v, rfl, ?_⟩
      simpa [Token.Kind.endsBrokenImport, Token.Kind.endsImport] using hlist hv

/-- A skip that begins with these tokens does not end before them. -/
def PassesOver (skip : List Token → Nat) (w : List Token.Kind) : Prop :=
  ∀ ⦃us ts : List Token⦄, us.map Token.kind <+: w → us.length ≤ skip (us ++ ts)

namespace PassesOver

variable {w : List Token.Kind}

/-- A skip over a sentence that ends with a semicolon goes over its parts and ends behind it. -/
theorem concat {skip : List Token → Nat}
    (hparts : ∀ us ts, us.map Token.kind <+: w → us.length ≤ skip (us ++ ts))
    (hend : ∀ us t ts, us.map Token.kind = w → t.kind = symbol .semicolon →
      skip (us ++ t :: ts) = us.length + 1) :
    PassesOver skip (w ++ [symbol .semicolon]) := by
  intro us ts hus
  rcases List.prefix_concat_iff.1 hus with hus | hus
  · obtain ⟨us, rest, rfl, hw, hrest⟩ := List.map_eq_append_iff.1 hus
    obtain ⟨t, rfl, ht⟩ := List.map_eq_singleton_iff.1 hrest
    rw [List.append_assoc, List.singleton_append, hend us t ts hw ht, List.length_append,
      List.length_singleton]
  · exact hparts us ts hus

/-- A sentence that keeps its depth is passed over, with the semicolon behind it. -/
theorem declarationRest (hw : KeepsDepth 0 w) :
    PassesOver (Skip.declarationRest 0) (w ++ [symbol .semicolon]) := by
  refine concat (fun us ts ⟨v, hv⟩ => ?_) fun us t ts hus ht =>
    Skip.declarationRest_of_balanced (by rw [hus, hw le_rfl]) ht
  have hdepth := hw (le_refl 0)
  rw [← hv] at hdepth
  obtain ⟨n, hn⟩ := depthBehind_of_append hdepth
  rw [Skip.declarationRest_append hn]
  exact Nat.le_add_right _ _

/-- And so is an import without a token that ends it earlier. -/
theorem importRest (hw : ∀ k ∈ w, k.endsBrokenImport = false) :
    PassesOver Skip.importRest (w ++ [symbol .semicolon]) := by
  refine concat (fun us ts hus => ?_) fun us t ts hus ht => Skip.importRest_of_semicolon
    (fun u hu => hw _ (hus ▸ List.mem_map_of_mem hu)) ht
  rw [Skip.importRest_append fun u hu => hw _ (hus.subset (List.mem_map_of_mem hu))]
  exact Nat.le_add_right _ _

/-- A declaration of a constant keeps its depth up to its semicolon. -/
theorem of_isConstItem (hw : w ∈ IsConstItem.words) : PassesOver (Skip.declarationRest 0) w := by
  obtain ⟨i, hw⟩ := hw
  obtain ⟨v, rfl, hv⟩ := hw.keepsDepth
  exact declarationRest hv

/-- So does a declaration of a type, whose records are counted as brackets. -/
theorem of_isTypeItem (hw : w ∈ IsTypeItem.words) : PassesOver (Skip.declarationRest 0) w := by
  obtain ⟨i, hw⟩ := hw
  obtain ⟨v, rfl, hv⟩ := hw.keepsDepth
  exact declarationRest hv

/-- An import is names, commas and its two words. -/
theorem of_isImport (hw : w ∈ IsImport.words) : PassesOver Skip.importRest w := by
  obtain ⟨i, hw⟩ := hw
  obtain ⟨v, rfl, hv⟩ := hw.endsBrokenImport
  exact importRest hv

end PassesOver

/-! ## Where reading goes on

  Behind a broken phrase some token has been skipped, and the error is not in front of the cursor. -/

/-- Reading goes on behind the first token of a broken phrase, and not in front of the error. -/
def Resumes (starts : Token.Kind → Prop) (L : Language Token.Kind)
    (resume : Cursor → Cursor → Cursor) : Prop :=
  ∀ ⦃c e c'⦄, starts c.kind → c.Fails L e c' →
    ∃ d, c ≤ d ∧ e.StandsAt d ∧ d ≤ c' ∧ d ≤ resume c c' ∧ (resume c c').remaining < c.remaining

section

variable {L : Language Token.Kind} {c d c' : Cursor} {u : List Token.Kind}

/-- What a parser took before it failed is skipped, if the sentences that it reads are. -/
theorem Cursor.le_of_passesOver {skip : List Token → Nat} (hL : ∀ w ∈ L, PassesOver skip w)
    (hu : c.Reaches u d) (hb : Begun L u) (hle : c ≤ c')
    (hrest : c'.rest = c.rest.drop (skip c.rest)) : d ≤ c' := by
  refine le_of_remaining_le hu.le hle ?_
  obtain ⟨v, hv⟩ := hb
  obtain ⟨-, ts, hr, rfl⟩ := hu
  have hpass : ts.length ≤ skip c.rest := hr ▸ hL _ hv (List.prefix_append _ v)
  have hlen := congrArg List.length hr
  rw [List.length_append] at hlen
  rw [remaining, remaining, hrest, List.length_drop]
  omega

/-- An item that begins with a name does not begin at the end of the source. -/
theorem ne_eof_of_isName {k : Token.Kind} (hk : k.isName = true) : k ≠ .eof := by
  rintro rfl
  cases hk

/-- Behind a broken import reading goes on behind the error. -/
theorem afterImport_resumes : Resumes (fun k => k = word .IMPORT ∨ k = word .FROM) IsImport.words
    fun start _ => start.afterImport := by
  rintro c e c' hc ⟨u, d, x, hu, hb, he, hx, -⟩
  have hle := c.advance_le_afterImport
  refine ⟨d, hu.le, he, hx.le, ?_, Cursor.remaining_lt_of_advance_le ?_ hle⟩
  · exact Cursor.le_of_passesOver (fun _ => .of_isImport) hu hb (c.le_advance.trans hle)
      (Cursor.rest_afterImport hc)
  · rcases hc with hc | hc <;> simp [hc]

/-- Where a declaration begins that is in the way of the broken one, reading goes on right there. -/
theorem resume_resumes (hL : ∀ w ∈ L, PassesOver (Skip.declarationRest 0) w) :
    Resumes (fun k => k.isName = true) L Cursor.resume := by
  rintro c e c' hc ⟨u, d, x, hu, hb, he, hx, -⟩
  refine ⟨d, hu.le, he, hx.le, ?_⟩
  have hle := c.advance_le_afterDeclaration
  unfold Cursor.resume
  split
  · exact ⟨Cursor.le_of_passesOver hL hu hb (c.le_advance.trans hle)
      (Cursor.rest_afterDeclaration hc),
      Cursor.remaining_lt_of_advance_le (ne_eof_of_isName hc) hle⟩
  · next hstay =>
    have hc' := Cursor.remaining_le_of_le (hu.trans hx).le
    exact ⟨hx.le, lt_of_le_of_ne hc' fun heq => hstay (Or.inl heq)⟩

end

end Modula

import Modula.Parser.Name
import Modula.Proofs.Reading
/-!
# What the parsers of names read

  A list of identifiers goes on as long as commas follow.  A qualified name goes on as long as points
  with names behind them follow; so it is read in full wherever no point comes after it.
-/

namespace Modula

open Token.Kind (word symbol)

/-- A qualified name is its identifiers, apart from its span. -/
theorem Qualident.relabel_ofIdents (i : Ident) (l : List Ident) :
    (Qualident.ofIdents i l).relabel .forget =
      ⟨i.relabel .forget, l.map (Ident.relabel .forget), .nowhere⟩ := by
  have grow : ∀ (l : List Ident) (q : Qualident),
      (l.foldl Qualident.push q).first = q.first ∧ (l.foldl Qualident.push q).more = q.more ++ l := by
    intro l
    induction l with
    | nil => intro q; exact ⟨rfl, (List.append_nil q.more).symm⟩
    | cons j l ih =>
      intro q
      obtain ⟨hf, hm⟩ := ih (q.push j)
      refine ⟨hf, ?_⟩
      rw [List.foldl_cons, hm, Qualident.push, List.append_assoc, List.singleton_append]
  obtain ⟨hf, hm⟩ := grow l (.ofIdent i)
  rw [Qualident.relabel, Qualident.ofIdents, hf, hm]
  rfl

/-- A list of identifiers is its identifiers, apart from its span. -/
theorem IdentList.relabel_ofIdents (i : Ident) (l : List Ident) :
    (IdentList.ofIdents i l).relabel .forget =
      ⟨i.relabel .forget, l.map (Ident.relabel .forget), .nowhere⟩ := by
  have grow : ∀ (l : List Ident) (is : IdentList),
      (l.foldl IdentList.push is).first = is.first ∧
        (l.foldl IdentList.push is).more = is.more ++ l := by
    intro l
    induction l with
    | nil => intro is; exact ⟨rfl, (List.append_nil is.more).symm⟩
    | cons j l ih =>
      intro is
      obtain ⟨hf, hm⟩ := ih (is.push j)
      refine ⟨hf, ?_⟩
      rw [List.foldl_cons, hm, IdentList.push, List.append_assoc, List.singleton_append]
  obtain ⟨hf, hm⟩ := grow l (.ofIdent i)
  rw [IdentList.relabel, IdentList.ofIdents, hf, hm]
  rfl

namespace Parser

/-! ## Lists of identifiers -/

theorem identList_readsOnly : ReadsOnly identList (IdentList.relabel .forget) IsIdentList := by
  intro construct c l c' h
  obtain ⟨⟨first, more⟩, d, h₁, h₂⟩ := bind_eq_ok.1 h
  cases h₂
  obtain ⟨w, hc, hw⟩ := sepBy_readsOnly (by nofun) ident_readsOnly h₁
  refine ⟨w, hc, ?_⟩
  rw [IdentList.relabel_ofIdents]
  exact .idents hw

theorem identList_readsAll (n : Nat) :
    ReadsAll n identList (IdentList.relabel .forget) IsIdentList (· ≠ symbol .comma) := by
  intro construct c w l rest hc hw hn hf
  cases hw with
  | idents hw =>
    obtain ⟨⟨first, more⟩, c', h₁, h₂, hr⟩ :=
      sepBy_readsAll trivial (ident_readsAll n) construct hc hw hn ⟨trivial, hf⟩
    obtain ⟨rfl, rfl⟩ := List.cons.inj h₂
    exact ⟨.ofIdents first more, c', bind_of_ok h₁, IdentList.relabel_ofIdents _ _, hr⟩

/-! ## Qualified names -/

theorem segments_readsOnly (budget : Nat) :
    ReadsOnly (segments budget) (List.map (Ident.relabel .forget))
      (Further (symbol .period) IsIdent) := by
  induction budget with
  | zero =>
    intro construct c l c' h
    cases h
    exact ⟨[], rfl, Or.inl ⟨rfl, rfl⟩⟩
  | succ budget ih =>
    intro construct c l c' h
    obtain ⟨_, _, h₁, h₂⟩ := bind_eq_ok.1 h
    cases h₁
    by_cases hp : c.kind = symbol .period ∧ c.kindAfter.isName
    · rw [if_pos hp] at h₂
      obtain ⟨_, _, h₃, h₄⟩ := bind_eq_ok.1 h₂
      cases h₃
      obtain ⟨i, d, h₅, h₆⟩ := bind_eq_ok.1 h₄
      obtain ⟨l', d', h₇, h₈⟩ := bind_eq_ok.1 h₆
      cases h₈
      obtain ⟨u, hu, hi⟩ := ident_readsOnly h₅
      obtain ⟨v, hv, hl⟩ := ih h₇
      refine ⟨symbol .period :: (u ++ v), ?_, Or.inr ⟨u ++ v, rfl, ?_⟩⟩
      · rw [Cursor.kinds_of_kind hp.1 nofun, hu, hv, List.cons_append, List.append_assoc]
      · exact separated_cons_iff.2 ⟨u, v, rfl, hi, hl⟩
    · rw [if_neg hp] at h₂
      cases h₂
      exact ⟨[], rfl, Or.inl ⟨rfl, rfl⟩⟩

theorem segments_readsAll (budget : Nat) :
    ∀ (construct : Construct) ⦃c w b rest⦄, c.kinds = w ++ rest →
      Further (symbol .period) IsIdent w b → w.length ≤ budget → upcoming rest ≠ symbol .period →
      ∃ l c', segments budget construct c = .ok l c' ∧ l.map (Ident.relabel .forget) = b ∧
        c'.kinds = rest := by
  induction budget with
  | zero =>
    rintro construct c w b rest hc (⟨rfl, rfl⟩ | ⟨v, rfl, -⟩) hb -
    · exact ⟨[], c, rfl, rfl, hc⟩
    · exact absurd hb (Nat.not_succ_le_zero _)
  | succ budget ih =>
    rintro construct c w b rest hc (⟨rfl, rfl⟩ | ⟨v, rfl, hv⟩) hb hf
    · have hk : c.kind ≠ symbol .period := by rwa [Cursor.kind_eq_upcoming, hc]
      refine ⟨[], c, ?_, rfl, hc⟩
      rw [segments, bind_of_ok (get_apply construct c), if_neg fun hp => hk hp.1, pure_apply]
    · obtain ⟨b, l, rfl⟩ : ∃ b' l, b = b' :: l := by cases hv <;> exact ⟨_, _, rfl⟩
      obtain ⟨u, v, rfl, hu, hl⟩ := separated_cons_iff.1 hv
      rw [List.length_cons, List.length_append] at hb
      rw [List.cons_append, List.append_assoc] at hc
      have hp : c.kind = symbol .period ∧ c.kindAfter.isName := by
        refine ⟨Cursor.kind_of_kinds hc, ?_⟩
        cases hu with
        | name text => rw [Cursor.kindAfter_eq_upcoming, hc]; rfl
      obtain ⟨i, d, h₁, hi, hd⟩ :=
        ident_readsAll _ construct (Cursor.kinds_advance_of_kinds hc) hu (Nat.le_refl _) trivial
      obtain ⟨l', d', h₂, hl', hd'⟩ := ih construct hd hl (by omega) hf
      refine ⟨i :: l', d', ?_, by rw [List.map_cons, hi, hl'], hd'⟩
      rw [segments, bind_of_ok (get_apply construct c), if_pos hp,
        bind_of_ok (advance_apply construct c), bind_of_ok h₁, bind_of_ok h₂, pure_apply]

theorem qualident_readsOnly : ReadsOnly qualident (Qualident.relabel .forget) IsQualident := by
  intro construct c q c' h
  obtain ⟨i, d, h₁, h₂⟩ := bind_eq_ok.1 h
  obtain ⟨_, _, h₃, h₄⟩ := bind_eq_ok.1 h₂
  cases h₃
  obtain ⟨l, d', h₅, h₆⟩ := bind_eq_ok.1 h₄
  cases h₆
  obtain ⟨u, hu, hi⟩ := ident_readsOnly h₁
  obtain ⟨v, hv, hl⟩ := segments_readsOnly _ h₅
  refine ⟨u ++ v, by rw [hu, hv, List.append_assoc], ?_⟩
  rw [Qualident.relabel_ofIdents]
  exact .parts (separated_cons_iff.2 ⟨u, v, rfl, hi, hl⟩)

theorem qualident_readsAll (n : Nat) :
    ReadsAll n qualident (Qualident.relabel .forget) IsQualident (· ≠ symbol .period) := by
  intro construct c w q rest hc hw hn hf
  cases hw with
  | parts hw =>
    obtain ⟨u, v, rfl, hu, hl⟩ := separated_cons_iff.1 hw
    rw [List.append_assoc] at hc
    obtain ⟨i, d, h₁, hi, hd⟩ := ident_readsAll _ construct hc hu (Nat.le_refl _) trivial
    have hb := Cursor.length_le_remaining hd
    obtain ⟨l, d', h₂, hl', hd'⟩ := segments_readsAll _ construct hd hl hb hf
    refine ⟨.ofIdents i l, d', ?_, ?_, hd'⟩
    · rw [qualident, bind_of_ok h₁, bind_of_ok (remaining_apply construct d), bind_of_ok h₂,
        pure_apply]
    · rw [Qualident.relabel_ofIdents, hi, hl']

end Parser

end Modula

import Modula.Parser.Item
import Modula.Proofs.Grammar.Unit
import Modula.Proofs.Reading.TypeExpr
/-!
# What the parsers of imports, declarations, headers and footers read

  All of these phrases end with a token of their own, a semicolon or a point.  So any token may follow
  them, and none of them is read too far.
-/

namespace Modula.Parser

open Token.Kind (word symbol)

/-! ## Imports -/

/-- An import that was read is one of the two kinds, with its semicolon. -/
theorem importClause_readsOnly : ReadsOnly importClause (Import.relabel .forget) IsImport := by
  intro construct c i c' h
  obtain ⟨_, _, h₁, h₂⟩ := bind_eq_ok.1 h
  cases h₁
  obtain ⟨kind, d, h₃, h₄⟩ := bind_eq_ok.1 h₂
  obtain ⟨_, _, h₅, h₆⟩ := bind_eq_ok.1 h₄
  obtain ⟨hs, rfl⟩ := expect_eq_ok h₅
  cases h₆
  obtain ⟨taken, d₁, h₇, h₈⟩ := bind_eq_ok.1 h₃
  rcases accept_eq_ok h₇ with ⟨rfl, hk, rfl⟩ | ⟨rfl, -, rfl⟩
  -- with `FROM` and a module in front
  · obtain ⟨source, d₂, h₉, h₁₀⟩ := bind_eq_ok.1 h₈
    obtain ⟨u, hu, hi⟩ := ident_readsOnly h₉
    obtain ⟨_, _, h₁₁, h₁₂⟩ := bind_eq_ok.1 h₁₀
    obtain ⟨hk', rfl⟩ := expect_eq_ok h₁₁
    obtain ⟨names, d₃, h₁₃, h₁₄⟩ := bind_eq_ok.1 h₁₂
    cases h₁₄
    obtain ⟨v, hv, hn⟩ := identList_readsOnly h₁₃
    refine ⟨word .FROM :: (u ++ word .IMPORT :: (v ++ [symbol .semicolon])), ?_,
      .unqualified hi hn⟩
    rw [Cursor.kinds_of_kind hk nofun, hu, Cursor.kinds_of_kind hk' nofun, hv,
      Cursor.kinds_of_kind hs nofun]
    simp
  -- without it
  · obtain ⟨_, _, h₉, h₁₀⟩ := bind_eq_ok.1 h₈
    obtain ⟨hk, rfl⟩ := expect_eq_ok h₉
    obtain ⟨modules, d₃, h₁₁, h₁₂⟩ := bind_eq_ok.1 h₁₀
    cases h₁₂
    obtain ⟨w, hw, hn⟩ := identList_readsOnly h₁₁
    refine ⟨word .IMPORT :: (w ++ [symbol .semicolon]), ?_, .qualified hn⟩
    rw [Cursor.kinds_of_kind hk nofun, hw, Cursor.kinds_of_kind hs nofun]
    simp

/-- Every import is read. -/
theorem importClause_readsAll (n : Nat) :
    ReadsAll n importClause (Import.relabel .forget) IsImport fun _ => True := by
  intro construct c w i rest hc hw hn _
  -- The semicolon and the span are the same for both kinds of import.
  have finish : ∀ {kind : ImportKind} {d : Cursor}, importKind construct c = .ok kind d →
      d.kinds = symbol .semicolon :: rest →
      importClause construct c =
        .ok ⟨kind, ⟨c.token.span.start, d.advance.lastEnd⟩⟩ d.advance := by
    intro kind d h hd
    rw [importClause, bind_of_ok (get_apply construct c)]
    exact (bind_of_ok h).trans (bind_of_ok (expect_of_kind (Cursor.kind_of_kinds hd)))
  cases hw with
  | qualified hw =>
    rw [List.cons_append, List.append_assoc] at hc
    have hk : c.kind ≠ word .FROM := by
      rw [Cursor.kind_of_kinds hc]
      nofun
    obtain ⟨modules, d, h, rfl, hd⟩ := identList_readsAll _ construct
      (Cursor.kinds_advance_of_kinds hc) hw (Nat.le_refl _)
      (show symbol .semicolon ≠ symbol .comma by decide)
    have hkind : importKind construct c = .ok (.qualified modules) d := by
      rw [importKind, bind_of_ok (accept_of_kind_ne hk), if_neg Bool.false_ne_true,
        bind_of_ok (expect_of_kind (Cursor.kind_of_kinds hc)), bind_of_ok h]
      rfl
    exact ⟨_, d.advance, finish hkind hd, rfl, Cursor.kinds_advance_of_kinds hd⟩
  | unqualified hu hv =>
    rw [List.cons_append, List.append_assoc, List.cons_append, List.append_assoc] at hc
    obtain ⟨source, d₁, h₁, rfl, hd₁⟩ := ident_readsAll _ construct
      (Cursor.kinds_advance_of_kinds hc) hu (Nat.le_refl _) trivial
    obtain ⟨names, d₂, h₂, rfl, hd₂⟩ := identList_readsAll _ construct
      (Cursor.kinds_advance_of_kinds hd₁) hv (Nat.le_refl _)
      (show symbol .semicolon ≠ symbol .comma by decide)
    have hkind : importKind construct c = .ok (.unqualified source names) d₂ := by
      rw [importKind, bind_of_ok (accept_of_kind (Cursor.kind_of_kinds hc)), if_pos rfl,
        bind_of_ok h₁, bind_of_ok (expect_of_kind (Cursor.kind_of_kinds hd₁)), bind_of_ok h₂]
      rfl
    exact ⟨_, d₂.advance, finish hkind hd₂, rfl, Cursor.kinds_advance_of_kinds hd₂⟩

/-! ## Declarations -/

/-- A constant that was read is a name, an equal sign, an expression and a semicolon. -/
theorem constItem_readsOnly : ReadsOnly constItem (ConstItem.relabel .forget) IsConstItem := by
  intro construct c i c' h
  obtain ⟨name, d, h₁, h₂⟩ := bind_eq_ok.1 h
  obtain ⟨u, hu, hi⟩ := ident_readsOnly h₁
  obtain ⟨_, _, h₃, h₄⟩ := bind_eq_ok.1 h₂
  obtain ⟨hk, rfl⟩ := expect_eq_ok h₃
  obtain ⟨value, d', h₅, h₆⟩ := bind_eq_ok.1 h₄
  obtain ⟨v, hv, he⟩ := expr_readsOnly h₅
  obtain ⟨_, _, h₇, h₈⟩ := bind_eq_ok.1 h₆
  obtain ⟨hs, rfl⟩ := expect_eq_ok h₇
  cases h₈
  refine ⟨u ++ symbol .equal :: (v ++ [symbol .semicolon]), ?_, .item hi he⟩
  rw [hu, Cursor.kinds_of_kind hk nofun, hv, Cursor.kinds_of_kind hs nofun]
  simp

/-- Every declaration of a constant is read; its expression ends at the semicolon. -/
theorem constItem_readsAll (n : Nat) :
    ReadsAll n constItem (ConstItem.relabel .forget) IsConstItem fun _ => True := by
  intro construct c w i rest hc hw hn _
  cases hw with
  | item hu hv =>
    rw [List.append_assoc, List.cons_append, List.append_assoc] at hc
    obtain ⟨name, d₁, h₁, rfl, hd₁⟩ :=
      ident_readsAll _ construct hc hu (Nat.le_refl _) trivial
    obtain ⟨value, d₂, h₂, rfl, hd₂⟩ := expr_readsAll _ construct
      (Cursor.kinds_advance_of_kinds hd₁) hv (Nat.le_refl _)
      (show EndsExpr (symbol .semicolon) by decide)
    refine ⟨⟨name, value, name.span.join value.span⟩, d₂.advance, ?_, rfl,
      Cursor.kinds_advance_of_kinds hd₂⟩
    rw [constItem, bind_of_ok h₁, bind_of_ok (expect_of_kind (Cursor.kind_of_kinds hd₁)),
      bind_of_ok h₂, bind_of_ok (expect_of_kind (Cursor.kind_of_kinds hd₂))]
    rfl

/-- A type that was read under a name is a type of the grammar. -/
theorem typeItem_readsOnly : ReadsOnly typeItem (TypeItem.relabel .forget) IsTypeItem := by
  intro construct c i c' h
  obtain ⟨name, d, h₁, h₂⟩ := bind_eq_ok.1 h
  obtain ⟨u, hu, hi⟩ := ident_readsOnly h₁
  obtain ⟨_, _, h₃, h₄⟩ := bind_eq_ok.1 h₂
  obtain ⟨hk, rfl⟩ := expect_eq_ok h₃
  obtain ⟨t, d', h₅, h₆⟩ := bind_eq_ok.1 h₄
  obtain ⟨v, hv, ht⟩ := type_readsOnly h₅
  obtain ⟨_, _, h₇, h₈⟩ := bind_eq_ok.1 h₆
  obtain ⟨hs, rfl⟩ := expect_eq_ok h₇
  cases h₈
  refine ⟨u ++ symbol .equal :: (v ++ [symbol .semicolon]), ?_, .item hi ht⟩
  rw [hu, Cursor.kinds_of_kind hk nofun, hv, Cursor.kinds_of_kind hs nofun]
  simp

/-- Every declaration of a type is read. -/
theorem typeItem_readsAll (n : Nat) :
    ReadsAll n typeItem (TypeItem.relabel .forget) IsTypeItem fun _ => True := by
  intro construct c w i rest hc hw hn _
  cases hw with
  | item hu hv =>
    rw [List.append_assoc, List.cons_append, List.append_assoc] at hc
    obtain ⟨name, d₁, h₁, rfl, hd₁⟩ :=
      ident_readsAll _ construct hc hu (Nat.le_refl _) trivial
    obtain ⟨t, d₂, h₂, rfl, hd₂⟩ := type_readsAll _ construct
      (Cursor.kinds_advance_of_kinds hd₁) hv (Nat.le_refl _)
      (show EndsType (symbol .semicolon) by decide)
    refine ⟨⟨name, t, name.span.join t.span⟩, d₂.advance, ?_, rfl,
      Cursor.kinds_advance_of_kinds hd₂⟩
    rw [typeItem, bind_of_ok h₁, bind_of_ok (expect_of_kind (Cursor.kind_of_kinds hd₁)),
      bind_of_ok h₂, bind_of_ok (expect_of_kind (Cursor.kind_of_kinds hd₂))]
    rfl

/-! ## Ends of a module -/

/-- What was read as the name of a module stands between `MODULE` and a semicolon. -/
theorem moduleName_readsOnly : ReadsOnly moduleName (Ident.relabel .forget) IsModuleName := by
  intro construct c i c' h
  obtain ⟨_, _, h₁, h₂⟩ := bind_eq_ok.1 h
  obtain ⟨hk, rfl⟩ := expect_eq_ok h₁
  obtain ⟨name, d, h₃, h₄⟩ := bind_eq_ok.1 h₂
  obtain ⟨w, hw, hi⟩ := ident_readsOnly h₃
  obtain ⟨_, _, h₅, h₆⟩ := bind_eq_ok.1 h₄
  obtain ⟨hs, rfl⟩ := expect_eq_ok h₅
  cases h₆
  refine ⟨word .MODULE :: (w ++ [symbol .semicolon]), ?_, .name hi⟩
  rw [Cursor.kinds_of_kind hk nofun, hw, Cursor.kinds_of_kind hs nofun]
  simp

/-- Every such name is read. -/
theorem moduleName_readsAll (n : Nat) :
    ReadsAll n moduleName (Ident.relabel .forget) IsModuleName fun _ => True := by
  intro construct c w i rest hc hw hn _
  cases hw with
  | name hw =>
    rw [List.cons_append, List.append_assoc] at hc
    obtain ⟨name, d, h, rfl, hd⟩ := ident_readsAll _ construct
      (Cursor.kinds_advance_of_kinds hc) hw (Nat.le_refl _) trivial
    refine ⟨name, d.advance, ?_, rfl, Cursor.kinds_advance_of_kinds hd⟩
    rw [moduleName, bind_of_ok (expect_of_kind (Cursor.kind_of_kinds hc)), bind_of_ok h,
      bind_of_ok (expect_of_kind (Cursor.kind_of_kinds hd)), pure_apply]

/-- The header of a definition module has `DEFINITION` in front. -/
theorem definitionHeader_readsOnly :
    ReadsOnly definitionHeader (Ident.relabel .forget) IsDefinitionHeader := by
  intro construct c i c' h
  obtain ⟨_, _, h₁, h₂⟩ := bind_eq_ok.1 h
  obtain ⟨hk, rfl⟩ := expect_eq_ok h₁
  obtain ⟨w, hw, hi⟩ := moduleName_readsOnly h₂
  exact ⟨word .DEFINITION :: w, (Cursor.kinds_of_kind hk nofun).trans (congrArg _ hw), .header hi⟩

/-- Every header of a definition module is read. -/
theorem definitionHeader_readsAll (n : Nat) :
    ReadsAll n definitionHeader (Ident.relabel .forget) IsDefinitionHeader fun _ => True := by
  intro construct c w i rest hc hw hn _
  cases hw with
  | header hv =>
    obtain ⟨name, d, h, hi, hd⟩ := moduleName_readsAll _ construct
      (Cursor.kinds_advance_of_kinds hc) hv (Nat.le_refl _) trivial
    exact ⟨name, d, (bind_of_ok (expect_of_kind (Cursor.kind_of_kinds hc))).trans h, hi, hd⟩

/-- The tree keeps whether `IMPLEMENTATION` was there. -/
theorem programHeader_readsOnly :
    ReadsOnly programHeader (fun p => (p.1, p.2.relabel .forget)) IsProgramHeader := by
  intro construct c p c' h
  obtain ⟨taken, d, h₁, h₂⟩ := bind_eq_ok.1 h
  obtain ⟨name, d', h₃, h₄⟩ := bind_eq_ok.1 h₂
  cases h₄
  obtain ⟨w, hw, hi⟩ := moduleName_readsOnly h₃
  rcases accept_eq_ok h₁ with ⟨rfl, hk, rfl⟩ | ⟨rfl, -, rfl⟩
  · exact ⟨word .IMPLEMENTATION :: w, (Cursor.kinds_of_kind hk nofun).trans (congrArg _ hw),
      .implementation hi⟩
  · exact ⟨w, hw, .program hi⟩

/-- Every header of the other modules is read. -/
theorem programHeader_readsAll (n : Nat) :
    ReadsAll n programHeader (fun p => (p.1, p.2.relabel .forget)) IsProgramHeader
      fun _ => True := by
  intro construct c w p rest hc hw hn _
  cases hw with
  | program hw =>
    -- A program module begins with `MODULE` at once.
    have hk : c.kind ≠ word .IMPLEMENTATION := by
      cases hw
      rw [Cursor.kind_of_kinds hc]
      nofun
    obtain ⟨name, d, h, rfl, hd⟩ :=
      moduleName_readsAll _ construct hc hw (Nat.le_refl _) trivial
    refine ⟨(false, name), d, ?_, rfl, hd⟩
    rw [programHeader, bind_of_ok (accept_of_kind_ne hk), bind_of_ok h, pure_apply]
  | implementation hw =>
    obtain ⟨name, d, h, rfl, hd⟩ := moduleName_readsAll _ construct
      (Cursor.kinds_advance_of_kinds hc) hw (Nat.le_refl _) trivial
    refine ⟨(true, name), d, ?_, rfl, hd⟩
    rw [programHeader, bind_of_ok (accept_of_kind (Cursor.kind_of_kinds hc)), bind_of_ok h,
      pure_apply]

/-- A footer that was read is `END`, a name and a period. -/
theorem footer_readsOnly : ReadsOnly footer (Ident.relabel .forget) IsFooter := by
  intro construct c i c' h
  obtain ⟨_, _, h₁, h₂⟩ := bind_eq_ok.1 h
  obtain ⟨hk, rfl⟩ := expect_eq_ok h₁
  obtain ⟨name, d, h₃, h₄⟩ := bind_eq_ok.1 h₂
  obtain ⟨w, hw, hi⟩ := ident_readsOnly h₃
  obtain ⟨_, _, h₅, h₆⟩ := bind_eq_ok.1 h₄
  obtain ⟨hs, rfl⟩ := expect_eq_ok h₅
  cases h₆
  refine ⟨word .END :: (w ++ [symbol .period]), ?_, .footer hi⟩
  rw [Cursor.kinds_of_kind hk nofun, hw, Cursor.kinds_of_kind hs nofun]
  simp

/-- Every footer is read; whether its name is the one of the header is not asked here. -/
theorem footer_readsAll (n : Nat) :
    ReadsAll n footer (Ident.relabel .forget) IsFooter fun _ => True := by
  intro construct c w i rest hc hw hn _
  cases hw with
  | footer hw =>
    rw [List.cons_append, List.append_assoc] at hc
    obtain ⟨name, d, h, rfl, hd⟩ := ident_readsAll _ construct
      (Cursor.kinds_advance_of_kinds hc) hw (Nat.le_refl _) trivial
    refine ⟨name, d.advance, ?_, rfl, Cursor.kinds_advance_of_kinds hd⟩
    rw [footer, bind_of_ok (expect_of_kind (Cursor.kind_of_kinds hc)), bind_of_ok h,
      bind_of_ok (expect_of_kind (Cursor.kind_of_kinds hd)), pure_apply]

end Modula.Parser

import Modula.Proofs.Reading.SimpleType
/-!
# What the parsers of types read

  Types and entries of records contain each other, and their parsers are written over readers of what
  is inside; both sides of `typeAt` and `entryAt` are proved together, by induction on the budget.

  The entries of a record end where a declaration begins, that is, at a name with an equals sign
  behind it.  No entry begins like that (`isEntry_begins`), so no entry is left out.
-/

namespace Modula.Parser

open Token.Kind (word symbol)

/-! ## Only sentences are read

  For each parser: if it ends with a tree, then the tokens it has taken are a phrase of the grammar for
  this tree, up to ids and spans. -/

/-- A procedure type is its word, with or without formal types behind it. -/
theorem procedureType_readsOnly : ReadsOnly procedureType (TypeExpr.relabel .forget) IsType := by
  intro construct c t c' h
  obtain ⟨head, _, h₁, h₂⟩ := bind_eq_ok.1 h
  obtain ⟨hk, rfl⟩ := expect_eq_ok h₁
  obtain ⟨_, hq, h₃⟩ := kind_bind_eq_ok h₂
  split at hq <;> subst hq
  · obtain ⟨f, d, h₄, h₅⟩ := bind_eq_ok.1 h₃
    cases h₅
    obtain ⟨w, hw, hf⟩ := formals_readsOnly h₄
    exact ⟨word .PROCEDURE :: w, (Cursor.kinds_of_kind hk nofun).trans (congrArg _ hw),
      .procedureWith hf⟩
  · cases h₃
    exact ⟨[word .PROCEDURE], Cursor.kinds_of_kind hk nofun, .procedure⟩

/-- Only ids are drawn for nested arrays. -/
theorem nestedArrays_eq_ok (element : TypeExpr) (construct : Construct) (l : List TypeExpr) :
    ∀ c : Cursor, ∃ t c', nestedArrays l element construct c = .ok t c' ∧
      t.relabel .forget = nested (l.map (TypeExpr.relabel .forget)) (element.relabel .forget) ∧
      c'.kinds = c.kinds := by
  induction l with
  | nil => exact fun c => ⟨element, c, rfl, rfl, rfl⟩
  | cons index more ih =>
    intro c
    obtain ⟨t, d, h, ht, hd⟩ := ih c
    refine ⟨⟨d.nextId, .array index t, ⟨index.span.start, t.span.stop⟩⟩,
      { d with nextId := d.nextId + 1 }, bind_of_ok h, ?_, hd⟩
    rw [TypeExpr.relabel, TypeKind.relabel, ht]
    rfl

section

variable {type : Parser TypeExpr} {entry : Parser FieldList}

/-- Index types with commas and an element type; the bare tree is a nest of arrays. -/
theorem arrayTypeWith_readsOnly (ht : ReadsOnly type (TypeExpr.relabel .forget) IsType) :
    ReadsOnly (arrayTypeWith type) (TypeExpr.relabel .forget) IsType := by
  intro construct c t c' h
  obtain ⟨head, _, h₁, h₂⟩ := bind_eq_ok.1 h
  obtain ⟨hk, rfl⟩ := expect_eq_ok h₁
  obtain ⟨⟨index, more⟩, d, h₃, h₄⟩ := bind_eq_ok.1 h₂
  obtain ⟨u, hu, hi⟩ := sepBy_readsOnly (by nofun) simpleType_readsOnly h₃
  obtain ⟨_, _, h₅, h₆⟩ := bind_eq_ok.1 h₄
  obtain ⟨hk', rfl⟩ := expect_eq_ok h₅
  obtain ⟨element, d', h₇, h₈⟩ := bind_eq_ok.1 h₆
  obtain ⟨v, hv, he⟩ := ht h₇
  -- The nodes of nested arrays are made behind everything that was read, and move nothing.
  obtain ⟨inner, e, h₉, hin, hcur⟩ := nestedArrays_eq_ok element .arrayType more d'
  rw [bind_of_ok h₉] at h₈
  cases h₈
  refine ⟨word .ARRAY :: (u ++ word .OF :: v), ?_, ?_⟩
  · rw [Cursor.kinds_of_kind hk nofun, hu, Cursor.kinds_of_kind hk' nofun, hv, ← hcur,
      List.cons_append, List.append_assoc, List.cons_append]
    rfl
  · rw [TypeExpr.relabel, TypeKind.relabel, hin]
    exact .array hi he

/-- Two words and a simple type. -/
theorem setType_readsOnly : ReadsOnly setType (TypeExpr.relabel .forget) IsType := by
  intro construct c t c' h
  obtain ⟨head, _, h₁, h₂⟩ := bind_eq_ok.1 h
  obtain ⟨hk, rfl⟩ := expect_eq_ok h₁
  obtain ⟨_, _, h₃, h₄⟩ := bind_eq_ok.1 h₂
  obtain ⟨hk', rfl⟩ := expect_eq_ok h₃
  obtain ⟨base, d, h₅, h₆⟩ := bind_eq_ok.1 h₄
  cases h₆
  obtain ⟨w, hw, hb⟩ := simpleType_readsOnly h₅
  refine ⟨word .SET :: word .OF :: w, ?_, .set hb⟩
  rw [Cursor.kinds_of_kind hk nofun, Cursor.kinds_of_kind hk' nofun, hw]
  rfl

/-- Two words and a type. -/
theorem pointerTypeWith_readsOnly (ht : ReadsOnly type (TypeExpr.relabel .forget) IsType) :
    ReadsOnly (pointerTypeWith type) (TypeExpr.relabel .forget) IsType := by
  intro construct c t c' h
  obtain ⟨head, _, h₁, h₂⟩ := bind_eq_ok.1 h
  obtain ⟨hk, rfl⟩ := expect_eq_ok h₁
  obtain ⟨_, _, h₃, h₄⟩ := bind_eq_ok.1 h₂
  obtain ⟨hk', rfl⟩ := expect_eq_ok h₃
  obtain ⟨target, d, h₅, h₆⟩ := bind_eq_ok.1 h₄
  cases h₆
  obtain ⟨w, hw, hb⟩ := ht h₅
  refine ⟨word .POINTER :: word .TO :: w, ?_, .pointer hb⟩
  rw [Cursor.kinds_of_kind hk nofun, Cursor.kinds_of_kind hk' nofun, hw]
  rfl

/-! ### Records

  Entries and types contain each other, so the parser of one is a parameter of the other here. -/

section

variable (he : ReadsOnly entry (FieldList.relabel .forget) IsEntry)

include he

/-- By induction on the budget: an entry behind a semicolon, or nothing behind the last one. -/
theorem moreEntries_readsOnly (budget : Nat) :
    ReadsOnly (moreEntries entry budget) (List.map (FieldList.relabel .forget)) FurtherEntries := by
  induction budget with
  | zero =>
    intro construct c l c' h
    cases h
    exact ⟨[], rfl, Or.inl ⟨rfl, rfl⟩⟩
  | succ budget ih =>
    intro construct c l c' h
    obtain ⟨taken, d, h₁, h₂⟩ := bind_eq_ok.1 h
    rcases accept_eq_ok h₁ with ⟨rfl, hk, rfl⟩ | ⟨rfl, -, rfl⟩
    · rw [if_pos rfl] at h₂
      obtain ⟨_, _, h₃, h₄⟩ := bind_eq_ok.1 h₂
      cases h₃
      -- A semicolon was taken.  It may be the last thing in front of what ends the entries.
      by_cases hend : c.advance.endsEntries = true
      · rw [if_pos hend] at h₄
        cases h₄
        exact ⟨[symbol .semicolon], Cursor.kinds_of_kind hk nofun, Or.inr (Or.inl ⟨rfl, rfl⟩)⟩
      · rw [if_neg hend] at h₄
        obtain ⟨e, d', h₅, h₆⟩ := bind_eq_ok.1 h₄
        obtain ⟨l', d'', h₇, h₈⟩ := bind_eq_ok.1 h₆
        cases h₈
        obtain ⟨u, hu, hentry⟩ := he h₅
        obtain ⟨v, hv, hl⟩ := ih h₇
        refine ⟨symbol .semicolon :: (u ++ v), ?_, Or.inr (Or.inr ⟨u ++ v, rfl, ?_⟩)⟩
        · rw [Cursor.kinds_of_kind hk nofun, hu, hv, List.cons_append, List.append_assoc]
        · exact isEntries_cons_iff.2 ⟨u, v, rfl, hentry, hl⟩
    · cases h₂
      exact ⟨[], rfl, Or.inl ⟨rfl, rfl⟩⟩

/-- At least one entry. -/
theorem entriesWith_readsOnly :
    ReadsOnly (entriesWith entry) (List.map (FieldList.relabel .forget)) IsEntries := by
  intro construct c l c' h
  obtain ⟨first, d, h₁, h₂⟩ := bind_eq_ok.1 h
  obtain ⟨_, _, h₃, h₄⟩ := bind_eq_ok.1 h₂
  cases h₃
  obtain ⟨more, d', h₅, h₆⟩ := bind_eq_ok.1 h₄
  cases h₆
  obtain ⟨u, hu, hf⟩ := he h₁
  obtain ⟨w, hw, hl⟩ := moreEntries_readsOnly he _ h₅
  exact ⟨u ++ w, by rw [hu, hw, List.append_assoc], isEntries_cons_iff.2 ⟨u, w, rfl, hf, hl⟩⟩

/-- Entries between `RECORD` and `END`. -/
theorem recordTypeWith_readsOnly :
    ReadsOnly (recordTypeWith entry) (TypeExpr.relabel .forget) IsType := by
  intro construct c t c' h
  obtain ⟨opener, _, h₁, h₂⟩ := bind_eq_ok.1 h
  obtain ⟨hk, rfl⟩ := expect_eq_ok h₁
  obtain ⟨entries, d, h₃, h₄⟩ := bind_eq_ok.1 h₂
  obtain ⟨w, hw, hl⟩ := entriesWith_readsOnly he h₃
  obtain ⟨_, _, h₅, h₆⟩ := bind_eq_ok.1 h₄
  obtain ⟨hk', rfl⟩ := close_eq_ok h₅
  cases h₆
  refine ⟨word .RECORD :: (w ++ [word .END]), ?_, ?_⟩
  · rw [Cursor.kinds_of_kind hk nofun, hw, Cursor.kinds_of_kind hk' nofun, List.cons_append,
      List.append_assoc]
    rfl
  · rw [TypeExpr.relabel, TypeKind.relabel, FieldList.relabelAll_eq_map]
    exact .record hl

/-- Labels, a colon and entries. -/
theorem armWith_readsOnly : ReadsOnly (armWith entry) (Variant.relabel .forget) IsArm := by
  intro construct c v c' h
  obtain ⟨_, _, h₁, h₂⟩ := bind_eq_ok.1 h
  cases h₁
  obtain ⟨⟨label, more⟩, d, h₃, h₄⟩ := bind_eq_ok.1 h₂
  obtain ⟨u, hu, hls⟩ := sepBy_readsOnly (by nofun) rangeItem_readsOnly h₃
  obtain ⟨_, _, h₅, h₆⟩ := bind_eq_ok.1 h₄
  obtain ⟨hk, rfl⟩ := expect_eq_ok h₅
  obtain ⟨entries, d', h₇, h₈⟩ := bind_eq_ok.1 h₆
  cases h₈
  obtain ⟨w, hw, hl⟩ := entriesWith_readsOnly he h₇
  refine ⟨u ++ symbol .colon :: w, ?_, ?_⟩
  · rw [hu, Cursor.kinds_of_kind hk nofun, hw, List.append_assoc, List.cons_append]
  · rw [Variant.relabel, FieldList.relabelAll_eq_map]
    exact .arm hls hl

/-- Entries behind `ELSE`, or nothing. -/
theorem otherwiseWith_readsOnly :
    ReadsOnly (otherwiseWith entry) (Option.map (List.map (FieldList.relabel .forget)))
      IsOtherwise := by
  intro construct c o c' h
  obtain ⟨taken, d, h₁, h₂⟩ := bind_eq_ok.1 h
  rcases accept_eq_ok h₁ with ⟨rfl, hk, rfl⟩ | ⟨rfl, -, rfl⟩
  · obtain ⟨entries, d', h₃, h₄⟩ := bind_eq_ok.1 h₂
    cases h₄
    obtain ⟨w, hw, hl⟩ := entriesWith_readsOnly he h₃
    exact ⟨word .ELSE :: w, (Cursor.kinds_of_kind hk nofun).trans (congrArg _ hw), .some hl⟩
  · cases h₂
    exact ⟨[], rfl, .none⟩

/-- What was read between `CASE` and `END` is a tag, arms and perhaps an `ELSE`. -/
theorem variantPartWith_readsOnly :
    ReadsOnly (variantPartWith entry) (FieldList.relabel .forget) IsEntry := by
  intro construct c e c' h
  obtain ⟨opener, _, h₁, h₂⟩ := bind_eq_ok.1 h
  obtain ⟨hk, rfl⟩ := expect_eq_ok h₁
  obtain ⟨⟨name, type⟩, d₁, h₃, h₄⟩ := bind_eq_ok.1 h₂
  obtain ⟨t, ht, htag⟩ := tag_readsOnly h₃
  obtain ⟨_, _, h₅, h₆⟩ := bind_eq_ok.1 h₄
  obtain ⟨hk₁, rfl⟩ := expect_eq_ok h₅
  obtain ⟨⟨arm, more⟩, d₂, h₇, h₈⟩ := bind_eq_ok.1 h₆
  obtain ⟨u, hu, harms⟩ := sepBy_readsOnly (by nofun) (armWith_readsOnly he) h₇
  obtain ⟨otherwise, d₃, h₉, h₁₀⟩ := bind_eq_ok.1 h₈
  obtain ⟨v, hv, ho⟩ := otherwiseWith_readsOnly he h₉
  obtain ⟨_, _, h₁₁, h₁₂⟩ := bind_eq_ok.1 h₁₀
  obtain ⟨hk₂, rfl⟩ := close_eq_ok h₁₁
  cases h₁₂
  -- the tokens, part by part, and then the tree
  refine ⟨word .CASE :: (t ++ word .OF :: (u ++ (v ++ [word .END]))), ?_, ?_⟩
  · rw [Cursor.kinds_of_kind hk nofun, ht, Cursor.kinds_of_kind hk₁ nofun, hu, hv,
      Cursor.kinds_of_kind hk₂ nofun]
    simp [Bracket.opener, Bracket.closer]
  · rw [FieldList.relabel, FieldKind.relabel, Variant.relabelAll_eq_map,
      FieldList.relabelAll?_eq_map]
    exact .variants htag harms ho

end

/-- Names, a colon and a type. -/
theorem fieldsWith_readsOnly (ht : ReadsOnly type (TypeExpr.relabel .forget) IsType) :
    ReadsOnly (fieldsWith type) (FieldList.relabel .forget) IsEntry := by
  intro construct c e c' h
  obtain ⟨names, d, h₁, h₂⟩ := bind_eq_ok.1 h
  obtain ⟨u, hu, hn⟩ := identList_readsOnly h₁
  obtain ⟨_, _, h₃, h₄⟩ := bind_eq_ok.1 h₂
  obtain ⟨hk, rfl⟩ := expect_eq_ok h₃
  obtain ⟨t, d', h₅, h₆⟩ := bind_eq_ok.1 h₄
  cases h₆
  obtain ⟨v, hv, htype⟩ := ht h₅
  refine ⟨u ++ symbol .colon :: v, ?_, .fields hn htype⟩
  rw [hu, Cursor.kinds_of_kind hk nofun, hv, List.append_assoc, List.cons_append]

/-! ### The knot

  The parameter is given its value by induction on the budget. -/

/-- The first token tells which phrase it is, so each branch has one phrase to show. -/
theorem typeWith_readsOnly (ht : ReadsOnly type (TypeExpr.relabel .forget) IsType)
    (he : ReadsOnly entry (FieldList.relabel .forget) IsEntry) :
    ReadsOnly (typeWith type entry) (TypeExpr.relabel .forget) IsType := by
  intro construct c t c' h
  obtain ⟨_, hq, h₁⟩ := kind_bind_eq_ok h
  split at hq <;> subst hq
  · exact arrayTypeWith_readsOnly ht h₁
  · exact recordTypeWith_readsOnly he h₁
  · exact setType_readsOnly h₁
  · exact pointerTypeWith_readsOnly ht h₁
  · exact procedureType_readsOnly h₁
  · obtain ⟨w, hw, hs⟩ := simpleType_readsOnly h₁
    exact ⟨w, hw, .simple hs⟩

/-- An entry is a variant part or a line of fields. -/
theorem entryWith_readsOnly (ht : ReadsOnly type (TypeExpr.relabel .forget) IsType)
    (he : ReadsOnly entry (FieldList.relabel .forget) IsEntry) :
    ReadsOnly (entryWith type entry) (FieldList.relabel .forget) IsEntry := by
  intro construct c e c' h
  obtain ⟨_, hq, h₁⟩ := kind_bind_eq_ok h
  split at hq <;> subst hq
  · exact variantPartWith_readsOnly he h₁
  · exact fieldsWith_readsOnly ht h₁

end

/-- With no budget left nothing is read, and nothing has to be shown. -/
theorem typeAt_readsOnly (budget : Nat) :
    ReadsOnly (typeAt budget) (TypeExpr.relabel .forget) IsType ∧
      ReadsOnly (entryAt budget) (FieldList.relabel .forget) IsEntry := by
  induction budget with
  | zero =>
    constructor
    · intro construct c t c' h
      exact absurd h fail_ne_ok
    · intro construct c e c' h
      exact absurd h fail_ne_ok
  | succ budget ih =>
    obtain ⟨ht, he⟩ := ih
    exact ⟨typeWith_readsOnly ht he, entryWith_readsOnly ht he⟩

/-- What is read as a type is a type of the grammar, and stands for the tree. -/
theorem type_readsOnly : ReadsOnly type (TypeExpr.relabel .forget) IsType := by
  intro construct c t c' h
  obtain ⟨_, _, h₁, h₂⟩ := bind_eq_ok.1 h
  cases h₁
  exact (typeAt_readsOnly _).1 h₂

/-! ## All sentences are read

  For each phrase of the grammar: its parser takes it as a whole, if nothing follows with which the phrase
  could go on. -/

/-! ### Ends of entries

  Entries of a record may be empty, so the last one ends where the next token tells that no entry begins. -/

/-- A token that ends the entries of a record does so whatever comes behind it. -/
theorem endsEntries_of_kind {c : Cursor} (h : EndsEntries c.kind) : c.endsEntries = true := by
  unfold Cursor.endsEntries
  rcases h with h | h | h <;> rw [h]

/-- Where entries begin, the entries before them have not ended. -/
theorem endsEntries_of_kinds {c : Cursor} {w rest : List Token.Kind} {l : List FieldList}
    (hc : c.kinds = w ++ rest) (hw : IsEntries w l) : c.endsEntries = false := by
  rcases isEntries_begins hw with ⟨v, rfl⟩ | ⟨text, k, v, rfl, hk⟩
  · have h := Cursor.kind_of_kinds hc
    rw [Cursor.endsEntries, h]
    simp only [Cursor.beginsDeclaration, h]
  · have h := Cursor.kind_of_kinds hc
    have hafter : c.kindAfter = k := by rw [Cursor.kindAfter_eq_upcoming, hc]; rfl
    rw [Cursor.endsEntries, h]
    simpa only [Cursor.beginsDeclaration, h, hafter, beq_eq_false_iff_ne] using hk

/-- Entries end in front of these tokens. -/
def EntriesEnd (rest : List Token.Kind) : Prop := ∀ c : Cursor, c.kinds = rest → c.endsEntries = true

/-- One token is enough to see it, if it is one of those that end entries by themselves. -/
theorem EntriesEnd.of_endsEntries {rest : List Token.Kind} (h : EndsEntries (upcoming rest)) :
    EntriesEnd rest := by
  rintro c rfl
  exact endsEntries_of_kind (c.kind_eq_upcoming ▸ h)

/-- Where entries end, a type ends as well, and there is no semicolon. -/
theorem EntriesEnd.next {rest : List Token.Kind} (h : EntriesEnd rest) :
    EndsType (upcoming rest) ∧ upcoming rest ≠ symbol .semicolon := by
  obtain ⟨c, rfl⟩ := Cursor.exists_kinds rest
  have hc := h c rfl
  rw [← Cursor.kind_eq_upcoming]
  unfold Cursor.endsEntries Cursor.beginsDeclaration at hc
  refine ⟨⟨?_, ?_, ?_⟩, ?_⟩ <;> intro hk <;> rw [hk] at hc <;> cases hc

/-- Behind an entry comes a semicolon, or what ends the entries. -/
theorem endsType_of_furtherEntries {v rest : List Token.Kind} {l : List FieldList}
    (hl : FurtherEntries v l) (hr : EntriesEnd rest) : EndsType (upcoming (v ++ rest)) := by
  rcases hl with ⟨rfl, rfl⟩ | ⟨rfl, rfl⟩ | ⟨v, rfl, -⟩
  · exact hr.next.1
  · exact (by decide : EndsType (symbol .semicolon))
  · exact (by decide : EndsType (symbol .semicolon))

section

variable {n : Nat} {type : Parser TypeExpr} {entry : Parser FieldList}

/-! ### Types around a type

  The budget of the type inside is less by the tokens in front of it. -/

/-- The index types are read up to `OF`, which no index type goes on with. -/
theorem arrayTypeWith_readsAll (ht : ReadsAll n type (TypeExpr.relabel .forget) IsType EndsType)
    (construct : Construct) {c : Cursor} {u v rest : List Token.Kind} {indexes : List TypeExpr}
    {element : TypeExpr} (hc : c.kinds = word .ARRAY :: (u ++ word .OF :: (v ++ rest)))
    (hu : Separated (symbol .comma) IsSimpleType u indexes) (hv : IsType v element)
    (hn : v.length ≤ n) (hr : EndsType (upcoming rest)) :
    ∃ t c', arrayTypeWith type construct c = .ok t c' ∧
      t.relabel .forget = nested indexes element ∧ c'.kinds = rest := by
  -- The index types end at `OF`, and the element type where the array does.
  obtain ⟨⟨index, more⟩, d, h₁, hi, hd⟩ := sepBy_readsAll (n := u.length) (by decide)
    (simpleType_readsAll _) .arrayType (Cursor.kinds_advance_of_kinds hc) hu (Nat.le_refl _)
    (show word .OF ≠ symbol .period ∧ word .OF ≠ symbol .comma by decide)
  obtain ⟨e, d', h₂, he, hd'⟩ :=
    ht .arrayType (Cursor.kinds_advance_of_kinds hd) hv hn hr
  obtain ⟨inner, d'', h₃, hin, hd''⟩ := nestedArrays_eq_ok e .arrayType more d'
  refine ⟨⟨d''.nextId, .array index inner, ⟨c.token.span.start, inner.span.stop⟩⟩,
    { d'' with nextId := d''.nextId + 1 }, ?_, ?_, hd''.trans hd'⟩
  · rw [arrayTypeWith, within_apply, bind_of_ok (expect_of_kind (Cursor.kind_of_kinds hc)),
      bind_of_ok h₁]
    exact (bind_of_ok (expect_of_kind (Cursor.kind_of_kinds hd))).trans
      ((bind_of_ok h₂).trans (bind_of_ok h₃))
  · rw [TypeExpr.relabel, TypeKind.relabel, hin, ← hi, he]
    rfl

/-- A set with its base type. -/
theorem setType_readsAll (construct : Construct) {c : Cursor} {w rest : List Token.Kind}
    {base : TypeExpr} (hc : c.kinds = word .SET :: word .OF :: (w ++ rest))
    (hw : IsSimpleType w base) (hr : EndsType (upcoming rest)) :
    ∃ t c', setType construct c = .ok t c' ∧ t.relabel .forget = ⟨0, .set base, .nowhere⟩ ∧
      c'.kinds = rest := by
  have hc₁ := Cursor.kinds_advance_of_kinds hc
  obtain ⟨b, d, h, rfl, hd⟩ := simpleType_readsAll _ .setType
    (Cursor.kinds_advance_of_kinds hc₁) hw (Nat.le_refl _) hr.1
  refine ⟨⟨d.nextId, .set b, ⟨c.token.span.start, b.span.stop⟩⟩,
    { d with nextId := d.nextId + 1 }, ?_, rfl, hd⟩
  rw [setType, within_apply, bind_of_ok (expect_of_kind (Cursor.kind_of_kinds hc)),
    bind_of_ok (expect_of_kind (Cursor.kind_of_kinds hc₁)), bind_of_ok h]
  rfl

/-- A pointer and what it points to, which is read with the budget of the whole type. -/
theorem pointerTypeWith_readsAll (ht : ReadsAll n type (TypeExpr.relabel .forget) IsType EndsType)
    (construct : Construct) {c : Cursor} {w rest : List Token.Kind} {target : TypeExpr}
    (hc : c.kinds = word .POINTER :: word .TO :: (w ++ rest)) (hw : IsType w target)
    (hn : w.length ≤ n) (hr : EndsType (upcoming rest)) :
    ∃ t c', pointerTypeWith type construct c = .ok t c' ∧
      t.relabel .forget = ⟨0, .pointer target, .nowhere⟩ ∧ c'.kinds = rest := by
  have hc₁ := Cursor.kinds_advance_of_kinds hc
  obtain ⟨t, d, h, rfl, hd⟩ :=
    ht .pointerType (Cursor.kinds_advance_of_kinds hc₁) hw hn hr
  refine ⟨⟨d.nextId, .pointer t, ⟨c.token.span.start, t.span.stop⟩⟩,
    { d with nextId := d.nextId + 1 }, ?_, rfl, hd⟩
  rw [pointerTypeWith, within_apply, bind_of_ok (expect_of_kind (Cursor.kind_of_kinds hc)),
    bind_of_ok (expect_of_kind (Cursor.kind_of_kinds hc₁)), bind_of_ok h]
  rfl

/-- A procedure type without parameters ends before any token but an opening parenthesis. -/
theorem procedureType_of_kinds (construct : Construct) {c : Cursor} {rest : List Token.Kind}
    (hc : c.kinds = word .PROCEDURE :: rest) (hr : EndsType (upcoming rest)) :
    ∃ t c', procedureType construct c = .ok t c' ∧
      t.relabel .forget = ⟨0, .procedure none, .nowhere⟩ ∧ c'.kinds = rest := by
  have hne : c.advance.kind ≠ Bracket.formalParameters.opener := by
    rw [Cursor.kind_eq_upcoming, Cursor.kinds_advance_of_kinds hc]
    exact hr.2.1
  refine ⟨⟨c.advance.nextId, .procedure none, ⟨c.token.span.start, c.advance.lastEnd⟩⟩,
    { c.advance with nextId := c.advance.nextId + 1 }, ?_, rfl, Cursor.kinds_advance_of_kinds hc⟩
  rw [procedureType, within_apply, bind_of_ok (expect_of_kind (Cursor.kind_of_kinds hc)),
    kind_bind_of_kind rfl, if_neg hne]
  rfl

/-- Formal types are read if they are there. -/
theorem procedureType_readsAll (construct : Construct) {c : Cursor} {w rest : List Token.Kind}
    {f : FormalTypes} (hc : c.kinds = word .PROCEDURE :: (w ++ rest)) (hw : IsFormals w f)
    (hr : EndsType (upcoming rest)) :
    ∃ t c', procedureType construct c = .ok t c' ∧
      t.relabel .forget = ⟨0, .procedure (some f), .nowhere⟩ ∧ c'.kinds = rest := by
  have hc₁ := Cursor.kinds_advance_of_kinds hc
  have hk : c.advance.kind = Bracket.formalParameters.opener := by
    rw [Cursor.kind_eq_upcoming, hc₁]
    cases hw
    rfl
  obtain ⟨f, d, h, rfl, hd⟩ :=
    formals_readsAll _ .procedureType hc₁ hw (Nat.le_refl _) ⟨hr.1, hr.2.2⟩
  refine ⟨⟨d.nextId, .procedure (some f), ⟨c.token.span.start, d.lastEnd⟩⟩,
    { d with nextId := d.nextId + 1 }, ?_, rfl, hd⟩
  rw [procedureType, within_apply, bind_of_ok (expect_of_kind (Cursor.kind_of_kinds hc)),
    kind_bind_of_kind hk, if_pos rfl]
  exact bind_of_ok h

/-! ### Records -/

section

variable (he : ReadsAll n entry (FieldList.relabel .forget) IsEntry EndsType)

include he

/-- By induction on the budget.  An entry that is there is never taken for the end, since it does not
begin like a declaration. -/
theorem moreEntries_readsAll (budget : Nat) :
    ∀ (construct : Construct) ⦃c w b rest⦄, c.kinds = w ++ rest → FurtherEntries w b → w.length ≤ n →
      w.length ≤ budget → EntriesEnd rest →
      ∃ l c', moreEntries entry budget construct c = .ok l c' ∧
        l.map (FieldList.relabel .forget) = b ∧ c'.kinds = rest := by
  induction budget with
  | zero =>
    rintro construct c w b rest hc (⟨rfl, rfl⟩ | ⟨rfl, rfl⟩ | ⟨v, rfl, -⟩) - hb -
    · exact ⟨[], c, rfl, rfl, hc⟩
    · exact absurd hb (Nat.not_succ_le_zero _)
    · exact absurd hb (Nat.not_succ_le_zero _)
  | succ budget ih =>
    -- nothing, a semicolon alone, or a semicolon and an entry
    rintro construct c w b rest hc (⟨rfl, rfl⟩ | ⟨rfl, rfl⟩ | ⟨v, rfl, hv⟩) hn hb hr
    · have hk : c.kind ≠ symbol .semicolon := by
        rw [Cursor.kind_eq_upcoming, hc]
        exact hr.next.2
      exact ⟨[], c, bind_of_ok (accept_of_kind_ne hk), rfl, hc⟩
    · -- a semicolon behind the last entry
      have hend : c.advance.endsEntries = true := hr _ (Cursor.kinds_advance_of_kinds hc)
      refine ⟨[], c.advance, ?_, rfl, Cursor.kinds_advance_of_kinds hc⟩
      rw [moreEntries, bind_of_ok (accept_of_kind (Cursor.kind_of_kinds hc)), if_pos rfl,
        bind_of_ok (get_apply construct c.advance), if_pos hend, pure_apply]
    · -- a semicolon with further entries behind it
      have hc₁ : c.advance.kinds = v ++ rest := Cursor.kinds_advance_of_kinds hc
      have hend : ¬ c.advance.endsEntries = true := by
        rw [endsEntries_of_kinds hc₁ hv]
        exact Bool.false_ne_true
      rw [List.length_cons] at hn hb
      obtain ⟨b, l, rfl⟩ : ∃ b' l, b = b' :: l := by cases hv <;> exact ⟨_, _, rfl⟩
      obtain ⟨u, v, rfl, hu, hl⟩ := isEntries_cons_iff.1 hv
      rw [List.length_append] at hn hb
      rw [List.append_assoc] at hc₁
      -- The first entry ends where the further ones begin.
      have hf := endsType_of_furtherEntries hl hr
      obtain ⟨e, d, h₁, hentry, hd⟩ := he construct hc₁ hu (by omega) hf
      obtain ⟨l', d', h₂, hl', hd'⟩ := ih construct hd hl (by omega) (by omega) hr
      refine ⟨e :: l', d', ?_, by rw [List.map_cons, hentry, hl'], hd'⟩
      rw [moreEntries, bind_of_ok (accept_of_kind (Cursor.kind_of_kinds hc)), if_pos rfl,
        bind_of_ok (get_apply construct c.advance), if_neg hend, bind_of_ok h₁, bind_of_ok h₂,
        pure_apply]

/-- Entries are read to where they end, be it the beginning of a declaration. -/
theorem entriesWith_reads (construct : Construct) {c : Cursor} {w rest : List Token.Kind}
    {b : List FieldList} (hc : c.kinds = w ++ rest) (hw : IsEntries w b) (hn : w.length ≤ n)
    (hr : EntriesEnd rest) : ∃ l c', entriesWith entry construct c = .ok l c' ∧
      l.map (FieldList.relabel .forget) = b ∧ c'.kinds = rest := by
  obtain ⟨b, l, rfl⟩ : ∃ b' l, b = b' :: l := by cases hw <;> exact ⟨_, _, rfl⟩
  obtain ⟨u, v, rfl, hu, hl⟩ := isEntries_cons_iff.1 hw
  rw [List.length_append] at hn
  rw [List.append_assoc] at hc
  have hf := endsType_of_furtherEntries hl hr
  obtain ⟨e, d, h₁, hentry, hd⟩ := he construct hc hu (by omega) hf
  have hb := Cursor.length_le_remaining hd
  obtain ⟨l', d', h₂, hl', hd'⟩ :=
    moreEntries_readsAll he _ construct hd hl (by omega) hb hr
  refine ⟨e :: l', d', ?_, by rw [List.map_cons, hentry, hl'], hd'⟩
  rw [entriesWith, bind_of_ok h₁, bind_of_ok (remaining_apply construct d), bind_of_ok h₂,
    pure_apply]

/-- All entries are read, up to what ends them. -/
theorem entriesWith_readsAll :
    ReadsAll n (entriesWith entry) (List.map (FieldList.relabel .forget)) IsEntries EndsEntries :=
  fun construct _ _ _ _ hc hw hn hr => entriesWith_reads he construct hc hw hn (.of_endsEntries hr)

/-- A record, which ends with a token of its own. -/
theorem recordTypeWith_readsAll (construct : Construct) {c : Cursor} {w rest : List Token.Kind}
    {l : List FieldList} (hc : c.kinds = word .RECORD :: (w ++ word .END :: rest))
    (hw : IsEntries w l) (hn : w.length ≤ n) :
    ∃ t c', recordTypeWith entry construct c = .ok t c' ∧
      t.relabel .forget = ⟨0, .record l, .nowhere⟩ ∧ c'.kinds = rest := by
  obtain ⟨entries, d, h, rfl, hd⟩ := entriesWith_readsAll he .recordType
    (Cursor.kinds_advance_of_kinds hc) hw hn (show EndsEntries (word .END) by decide)
  refine ⟨⟨d.advance.nextId, .record entries, ⟨c.token.span.start, d.advance.lastEnd⟩⟩,
    { d.advance with nextId := d.advance.nextId + 1 }, ?_, ?_, Cursor.kinds_advance_of_kinds hd⟩
  · have hk : c.kind = Bracket.record.opener := Cursor.kind_of_kinds hc
    rw [recordTypeWith, within_apply, bind_of_ok (expect_of_kind hk), bind_of_ok h,
      bind_of_ok (close_of_kind (Cursor.kind_of_kinds hd))]
    rfl
  · rw [TypeExpr.relabel, TypeKind.relabel, FieldList.relabelAll_eq_map]
    rfl

/-- An arm ends at a bar, at `ELSE` or at `END`, and all of these end entries. -/
theorem armWith_readsAll :
    ReadsAll n (armWith entry) (Variant.relabel .forget) IsArm EndsEntries := by
  intro construct c w v rest hc hw hn hr
  cases hw with
  | arm hu hv =>
    rw [List.length_append, List.length_cons] at hn
    rw [List.append_assoc, List.cons_append] at hc
    -- No label goes on at a colon.
    obtain ⟨⟨label, more⟩, d, h₁, rfl, hd⟩ := sepBy_readsAll (by decide)
      (rangeItem_readsAll n) construct hc hu (by omega)
      (show EndsElement (symbol .colon) ∧ symbol .colon ≠ symbol .comma by decide)
    obtain ⟨entries, d', h₂, rfl, hd'⟩ := entriesWith_readsAll he construct
      (Cursor.kinds_advance_of_kinds hd) hv (by omega) hr
    refine ⟨⟨label :: more, entries, ⟨c.token.span.start, d'.lastEnd⟩⟩, d', ?_, ?_, hd'⟩
    · rw [armWith, bind_of_ok (get_apply construct c)]
      exact (bind_of_ok h₁).trans ((bind_of_ok (expect_of_kind (Cursor.kind_of_kinds hd))).trans
        (bind_of_ok h₂))
    · rw [Variant.relabel, FieldList.relabelAll_eq_map]
      rfl

/-- The entries behind `ELSE`, up to the `END` of the variant part. -/
theorem otherwiseWith_readsAll :
    ReadsAll n (otherwiseWith entry) (Option.map (List.map (FieldList.relabel .forget)))
      IsOtherwise (· = word .END) := by
  intro construct c w o rest hc hw hn hr
  cases hw with
  | none =>
    -- Without an `ELSE` it is the `END` of the variant part that comes next.
    have hk : c.kind ≠ word .ELSE := by
      rw [Cursor.kind_eq_upcoming, hc]
      show upcoming rest ≠ _
      rw [hr]
      nofun
    exact ⟨none, c, bind_of_ok (accept_of_kind_ne hk), rfl, hc⟩
  | some hw =>
    rw [List.length_cons] at hn
    obtain ⟨entries, c', h, rfl, hc'⟩ := entriesWith_readsAll he construct
      (Cursor.kinds_advance_of_kinds hc) hw (by omega) (Or.inl hr)
    refine ⟨some entries, c', ?_, rfl, hc'⟩
    rw [otherwiseWith, bind_of_ok (accept_of_kind (Cursor.kind_of_kinds hc)), if_pos rfl,
      bind_of_ok h]
    rfl

/-- A variant part is read with all of its arms. -/
theorem variantPartWith_readsAll (construct : Construct) {c : Cursor}
    {t u v rest : List Token.Kind} {tag : Option Ident} {tagType : Qualident} {arms : List Variant}
    {otherwise : Option (List FieldList)}
    (hc : c.kinds = word .CASE :: (t ++ word .OF :: (u ++ (v ++ word .END :: rest))))
    (ht : IsTag t (tag, tagType)) (hu : Separated (symbol .bar) IsArm u arms)
    (hv : IsOtherwise v otherwise) (hnu : u.length ≤ n) (hnv : v.length ≤ n) :
    ∃ e c', variantPartWith entry construct c = .ok e c' ∧
      e.relabel .forget = ⟨.variants tag tagType arms otherwise, .nowhere⟩ ∧ c'.kinds = rest := by
  -- What ends the last arm is an `ELSE` or the `END`.
  have hf : EndsEntries (upcoming (v ++ word .END :: rest)) ∧
      upcoming (v ++ word .END :: rest) ≠ symbol .bar := by
    cases hv with
    | none => exact (by decide : EndsEntries (word .END) ∧ word .END ≠ symbol .bar)
    | some _ => exact (by decide : EndsEntries (word .ELSE) ∧ word .ELSE ≠ symbol .bar)
  obtain ⟨⟨name, type⟩, d₁, h₁, htag, hd₁⟩ := tag_readsAll _ .variantPart
    (Cursor.kinds_advance_of_kinds hc) ht (Nat.le_refl _) rfl
  obtain ⟨rfl, rfl⟩ := Prod.mk.inj htag
  obtain ⟨⟨arm, more⟩, d₂, h₂, rfl, hd₂⟩ := sepBy_readsAll (by decide)
    (armWith_readsAll he) .variantPart (Cursor.kinds_advance_of_kinds hd₁) hu hnu hf
  obtain ⟨otherwise, d₃, h₃, rfl, hd₃⟩ :=
    otherwiseWith_readsAll he .variantPart hd₂ hv hnv rfl
  -- The parts have been read one behind the other; what is left is to run them in sequence.
  refine ⟨⟨.variants name type (arm :: more) otherwise, ⟨c.token.span.start, d₃.advance.lastEnd⟩⟩,
    d₃.advance, ?_, ?_, Cursor.kinds_advance_of_kinds hd₃⟩
  · have hk : c.kind = Bracket.variantPart.opener := Cursor.kind_of_kinds hc
    rw [variantPartWith, within_apply, bind_of_ok (expect_of_kind hk), bind_of_ok h₁]
    exact (bind_of_ok (expect_of_kind (Cursor.kind_of_kinds hd₁))).trans ((bind_of_ok h₂).trans
      ((bind_of_ok h₃).trans (bind_of_ok (close_of_kind (Cursor.kind_of_kinds hd₃)))))
  · rw [FieldList.relabel, FieldKind.relabel, Variant.relabelAll_eq_map,
      FieldList.relabelAll?_eq_map]
    rfl

end

/-- A line of fields, up to what ends its type. -/
theorem fieldsWith_readsAll (ht : ReadsAll n type (TypeExpr.relabel .forget) IsType EndsType)
    (construct : Construct) {c : Cursor} {u v rest : List Token.Kind} {names : IdentList}
    {t : TypeExpr} (hc : c.kinds = u ++ symbol .colon :: (v ++ rest)) (hu : IsIdentList u names)
    (hv : IsType v t) (hn : v.length ≤ n) (hr : EndsType (upcoming rest)) :
    ∃ e c', fieldsWith type construct c = .ok e c' ∧
      e.relabel .forget = ⟨.fields names t, .nowhere⟩ ∧ c'.kinds = rest := by
  obtain ⟨names, d, h₁, rfl, hd⟩ := identList_readsAll _ construct hc hu
    (Nat.le_refl _) (show symbol .colon ≠ symbol .comma by decide)
  obtain ⟨t, d', h₂, rfl, hd'⟩ :=
    ht construct (Cursor.kinds_advance_of_kinds hd) hv hn hr
  refine ⟨⟨.fields names t, names.span.join t.span⟩, d', ?_, rfl, hd'⟩
  rw [fieldsWith, bind_of_ok h₁, bind_of_ok (expect_of_kind (Cursor.kind_of_kinds hd)),
    bind_of_ok h₂]
  rfl

/-! ### The knot -/

/-- One case for each production of types.  What is inside is shorter by a word at least, so one unit
more of budget is enough. -/
theorem typeWith_readsAll (ht : ReadsAll n type (TypeExpr.relabel .forget) IsType EndsType)
    (he : ReadsAll n entry (FieldList.relabel .forget) IsEntry EndsType) :
    ReadsAll (n + 1) (typeWith type entry) (TypeExpr.relabel .forget) IsType EndsType := by
  intro construct c w t rest hc hw hn hr
  -- the first token of the sentence chooses the parser that reads it
  cases hw with
  | simple hw =>
    have hsimple : typeWith type entry construct c = simpleType construct c := by
      obtain ⟨k, v, rfl, hk⟩ := isSimpleType_begins hw
      rw [typeWith, kind_bind_of_kind (Cursor.kind_of_kinds hc)]
      cases k with
      | word k => cases hk
      | _ => rfl
    rw [hsimple]
    exact simpleType_readsAll _ construct hc hw hn hr.1
  | array hu hv =>
    rw [List.length_cons, List.length_append, List.length_cons] at hn
    rw [List.cons_append, List.append_assoc, List.cons_append] at hc
    rw [typeWith, kind_bind_of_kind (Cursor.kind_of_kinds hc)]
    exact arrayTypeWith_readsAll ht construct hc hu hv (by omega) hr
  | record hw =>
    rw [List.length_cons, List.length_append] at hn
    rw [List.cons_append, List.append_assoc] at hc
    rw [typeWith, kind_bind_of_kind (Cursor.kind_of_kinds hc)]
    exact recordTypeWith_readsAll he construct hc hw (by omega)
  | set hw =>
    rw [typeWith, kind_bind_of_kind (Cursor.kind_of_kinds hc)]
    exact setType_readsAll construct hc hw hr
  | pointer hw =>
    rw [List.length_cons, List.length_cons] at hn
    rw [typeWith, kind_bind_of_kind (Cursor.kind_of_kinds hc)]
    exact pointerTypeWith_readsAll ht construct hc hw (by omega) hr
  | procedure =>
    rw [typeWith, kind_bind_of_kind (Cursor.kind_of_kinds hc)]
    exact procedureType_of_kinds construct hc hr
  | procedureWith hw =>
    rw [typeWith, kind_bind_of_kind (Cursor.kind_of_kinds hc)]
    exact procedureType_readsAll construct hc hw hr

/-- One case for each of the two kinds of entry; the first token tells them apart. -/
theorem entryWith_readsAll (ht : ReadsAll n type (TypeExpr.relabel .forget) IsType EndsType)
    (he : ReadsAll n entry (FieldList.relabel .forget) IsEntry EndsType) :
    ReadsAll (n + 1) (entryWith type entry) (FieldList.relabel .forget) IsEntry EndsType := by
  intro construct c w e rest hc hw hn hr
  cases hw with
  | fields hu hv =>
    -- A line of fields begins with a name, so it is not taken for a variant part.
    have hne : c.kind ≠ Bracket.variantPart.opener := by
      obtain ⟨k, v, rfl, hk⟩ := isIdentList_begins hu
      rw [Cursor.kind_of_kinds hc]
      rintro rfl
      cases hk
    rw [List.length_append, List.length_cons] at hn
    rw [List.append_assoc, List.cons_append] at hc
    rw [entryWith, kind_bind_of_kind rfl, if_neg hne]
    exact fieldsWith_readsAll ht construct hc hu hv (by omega) hr
  | variants htag hu hv =>
    rw [List.length_cons, List.length_append, List.length_cons, List.length_append,
      List.length_append] at hn
    simp only [List.cons_append, List.append_assoc, List.nil_append] at hc
    have hk : c.kind = Bracket.variantPart.opener := Cursor.kind_of_kinds hc
    rw [entryWith, kind_bind_of_kind hk, if_pos rfl]
    exact variantPartWith_readsAll he construct hc htag hu hv (by omega) (by omega)

end

/-- Every level of nesting takes a token, so the budget does not run out. -/
theorem typeAt_readsAll (n : Nat) :
    ReadsAll n (typeAt n) (TypeExpr.relabel .forget) IsType EndsType ∧
      ReadsAll n (entryAt n) (FieldList.relabel .forget) IsEntry EndsType := by
  induction n with
  | zero =>
    constructor
    · intro construct c w t rest hc hw hn
      obtain ⟨k, v, rfl, -⟩ := isType_begins hw
      exact absurd hn (Nat.not_succ_le_zero _)
    · intro construct c w e rest hc hw hn
      rcases isEntry_begins hw with ⟨v, rfl⟩ | ⟨text, k, v, rfl, -⟩
      · exact absurd hn (Nat.not_succ_le_zero _)
      · exact absurd hn (Nat.not_succ_le_zero _)
  | succ n ih =>
    obtain ⟨ht, he⟩ := ih
    exact ⟨typeWith_readsAll ht he, entryWith_readsAll ht he⟩

/-- Every type is read, however long, because the budget is the number of tokens left. -/
theorem type_readsAll (n : Nat) :
    ReadsAll n type (TypeExpr.relabel .forget) IsType EndsType :=
  ReadsAll.of_budget (fun n => (typeAt_readsAll n).1) n

/-- No sequence of tokens stands for two types. -/
theorem isType_unique {w : List Token.Kind} {a b : TypeExpr} (ha : IsType w a) (hb : IsType w b) :
    a = b :=
  ReadsAll.unique type_readsAll (by decide) ha hb

end Modula.Parser

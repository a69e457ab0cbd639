import Modula.Proofs.Balance
/-!
# Types with an `END` too few

  If one `END` of a type is left out, the brackets of the others match differently: each `END` behind the
  gap closes the record around the one that it used to close, and the entries between them move one
  level inwards.  The one record that is left open is the outermost one, and it is still a list of
  entries (`IsOpenType`).

  The induction that shows this (`IsType.isOpenType`) goes through fields and lists of fields as
  well, and there the record that is left open is not the outermost one.  What has to be known about it is
  that entries stand in it, and that its `END` may be put behind any other entries as well
  (`LeavesOpen`).  For then the entries that are still to come and the `END` of the record outside make
  it a sentence again.

  Two things are needed for this.  The type has no variant parts, whose arms would be torn apart.  And no
  semicolon stands in front of the `END` that is left out, since there would be two of them in a row, and
  no entry between them.
-/

namespace Modula

open Token.Kind (word symbol)

/-! ## Entries and semicolons

  A semicolon behind the last entry may be there or not, so entries are told without it first. -/

/-- `entry {";" entry}` -/
abbrev IsEntryList : Phrase (List FieldList) := Separated (symbol .semicolon) IsEntry

section

variable {u v w : List Token.Kind} {l l' : List FieldList}

/-- A list of entries is what a record may hold. -/
theorem IsEntryList.isEntries (hw : IsEntryList w l) : IsEntries w l := by
  induction hw with
  | one he => exact .one he
  | more he _ ih => exact .more he ih

/-- Entries may end with a semicolon. -/
theorem IsEntryList.isEntries_concat (hw : IsEntryList w l) : IsEntries (w ++ [symbol .semicolon]) l := by
  induction hw with
  | one he => exact .last he
  | more he _ ih =>
    rw [List.append_assoc]
    exact .more he ih

/-- Entries may go on behind a semicolon. -/
theorem IsEntryList.isEntries_append (hu : IsEntryList u l) (hv : IsEntries v l') :
    IsEntries (u ++ symbol .semicolon :: v) (l ++ l') := by
  induction hu with
  | one he => exact .more he hv
  | more he _ ih =>
    rw [List.append_assoc]
    exact .more he ih

/-- Without a semicolon at their end, entries are a list with semicolons between them. -/
theorem IsEntries.isEntryList (hw : IsEntries w l) (hlast : w.getLast? ≠ some (symbol .semicolon)) :
    IsEntryList w l := by
  induction l generalizing w with
  | nil => cases hw
  | cons e l ih =>
    obtain ⟨u, v, rfl, he, hv⟩ := isEntries_cons_iff.1 hw
    refine separated_cons_iff.2 ⟨u, v, rfl, he, ?_⟩
    rcases hv with ⟨rfl, rfl⟩ | ⟨rfl, rfl⟩ | ⟨v, rfl, hv⟩
    · exact Or.inl ⟨rfl, rfl⟩
    · exact absurd List.getLast?_concat hlast
    · refine Or.inr ⟨v, rfl, ih hv fun hv => hlast ?_⟩
      rw [List.getLast?_append, List.getLast?_cons, hv]
      rfl

end

/-! ## Records that are left open

  Where an `END` is missing, the record in front takes all that comes, up to the semicolon of the
  declaration. -/

/-- A type whose outermost record is not closed. -/
inductive IsOpenType : List Token.Kind → Prop
  | record {w : List Token.Kind} {l : List FieldList} :
    IsEntryList w l → IsOpenType (word .RECORD :: w)
  | array {u v : List Token.Kind} {indexes : List TypeExpr} :
    Separated (symbol .comma) IsSimpleType u indexes → IsOpenType v →
      IsOpenType (word .ARRAY :: (u ++ word .OF :: v))
  | pointer {w : List Token.Kind} : IsOpenType w → IsOpenType (word .POINTER :: word .TO :: w)

/-- In a sentence of the phrase a record is left open, with such entries in it; and with any other
entries and its `END` the sentence is one again. -/
def LeavesOpen {α : Type} (phrase : Phrase α) (inner : Phrase (List FieldList))
    (w : List Token.Kind) : Prop :=
  ∃ u v l, w = u ++ word .RECORD :: v ∧ inner v l ∧ ∀ v' l', IsEntries v' l' →
    ∃ a, phrase (u ++ word .RECORD :: (v' ++ [word .END])) a

/-- What stands in front of a sentence and behind it may make it another one. -/
theorem LeavesOpen.between {α β : Type} {phrase : Phrase α} {phrase' : Phrase β}
    {inner inner' : Phrase (List FieldList)} {u v w : List Token.Kind} (h : LeavesOpen phrase inner w)
    (hphrase : ∀ x a, phrase x a → ∃ b, phrase' (u ++ x) b)
    (hinner : ∀ x l, inner x l → ∃ l', inner' (x ++ v) l') :
    LeavesOpen phrase' inner' (u ++ (w ++ v)) := by
  obtain ⟨x, y, l, rfl, hy, hclose⟩ := h
  obtain ⟨l', hl'⟩ := hinner y l hy
  refine ⟨u ++ x, y ++ v, l', by simp, hl', fun v' l' hv' => ?_⟩
  obtain ⟨a, ha⟩ := hclose v' l' hv'
  rw [List.append_assoc]
  exact hphrase _ a ha

/-- A type that ends with an open record is a type but for an `END`. -/
theorem IsOpenType.leavesOpen {w : List Token.Kind} (h : IsOpenType w) :
    LeavesOpen IsType IsEntryList w := by
  have hsame : ∀ x l, IsEntryList x l → ∃ l', IsEntryList (x ++ []) l' :=
    fun x l hx => ⟨l, by rwa [List.append_nil]⟩
  induction h with
  | @record w l hw => exact ⟨[], w, l, rfl, hw, fun v' l' hv' => ⟨_, .record hv'⟩⟩
  | @array u w indexes hu _ ih =>
    have harray : LeavesOpen IsType IsEntryList ((word .ARRAY :: (u ++ [word .OF])) ++ (w ++ [])) :=
      ih.between (fun x t ht => ⟨nested indexes t, by simpa using IsType.array hu ht⟩) hsame
    simpa using harray
  | @pointer w _ ih =>
    have hpointer : LeavesOpen IsType IsEntryList ([word .POINTER, word .TO] ++ (w ++ [])) :=
      ih.between (fun x t ht => ⟨_, .pointer ht⟩) hsame
    simpa using hpointer

/-! ## Leaving out an `END`

  What is left out may be any `END` of a type, so that it has to be found by the structure of the type. -/

/-- The second list is the first one without one of its `END`s, in front of which no semicolon stands. -/
def LacksEnd (w w' : List Token.Kind) : Prop :=
  ∃ u v, w = u ++ word .END :: v ∧ w' = u ++ v ∧ u.getLast? ≠ some (symbol .semicolon)

namespace LacksEnd

variable {k : Token.Kind} {u v w w' : List Token.Kind}

/-- Where there is no `END` none can be left out. -/
theorem not_isFlat (h : LacksEnd w w') : ¬ ∀ k ∈ w, k.isFlat = true := by
  obtain ⟨u, v, rfl, -, -⟩ := h
  intro hflat
  exact absurd (hflat (word .END) (List.mem_append_right u List.mem_cons_self)) (by decide)

/-- The `END` that is missing is missing in one of two parts. -/
theorem of_append (h : LacksEnd (u ++ v) w') :
    (∃ u', LacksEnd u u' ∧ w' = u' ++ v) ∨ ∃ v', LacksEnd v v' ∧ w' = u ++ v' := by
  obtain ⟨x, y, heq, rfl, hlast⟩ := h
  rcases List.append_eq_append_iff.1 heq with ⟨z, rfl, rfl⟩ | ⟨z, rfl, hz⟩
  · refine Or.inr ⟨z ++ y, ⟨z, y, rfl, rfl, fun hz => hlast ?_⟩, List.append_assoc ..⟩
    rw [List.getLast?_append, hz]
    rfl
  · cases z with
    | nil =>
      cases hz
      exact Or.inr ⟨y, ⟨[], y, rfl, rfl, nofun⟩, by rw [List.append_nil]⟩
    | cons k z =>
      obtain ⟨rfl, rfl⟩ := List.cons.inj hz
      exact Or.inl ⟨x ++ z, ⟨x, z, rfl, rfl, hlast⟩, (List.append_assoc ..).symm⟩

/-- And not in a part that has none. -/
theorem of_flat_append (hu : ∀ k ∈ u, k.isFlat = true) (h : LacksEnd (u ++ v) w') :
    ∃ v', LacksEnd v v' ∧ w' = u ++ v' :=
  h.of_append.resolve_left fun ⟨_, h', _⟩ => h'.not_isFlat hu

/-- Nor at a token that is none. -/
theorem of_cons (hk : k ≠ word .END) (h : LacksEnd (k :: w) w') :
    ∃ x, LacksEnd w x ∧ w' = k :: x := by
  rcases @of_append [k] w w' h with ⟨_, ⟨u, v, heq, -⟩, -⟩ | h
  · have hmem : word .END ∈ [k] := heq ▸ List.mem_append_right u List.mem_cons_self
    exact absurd (List.mem_singleton.1 hmem).symm hk
  · exact h

/-- Either it is the last `END`, or there is still one at the end. -/
theorem of_concat (h : LacksEnd (w ++ [word .END]) w') :
    (w' = w ∧ w.getLast? ≠ some (symbol .semicolon)) ∨
      ∃ x, LacksEnd w x ∧ w' = x ++ [word .END] := by
  obtain ⟨u, v, heq, rfl, hlast⟩ := h
  rcases List.eq_nil_or_concat v with rfl | ⟨v, k, rfl⟩
  · obtain ⟨rfl, -⟩ := List.append_inj' heq rfl
    exact Or.inl ⟨List.append_nil w, hlast⟩
  · rw [List.concat_eq_append, ← List.cons_append, ← List.append_assoc] at heq
    obtain ⟨rfl, hk⟩ := List.append_inj' heq rfl
    refine Or.inr ⟨u ++ v, ⟨u, v, rfl, rfl, hlast⟩, ?_⟩
    rw [List.concat_eq_append, ← List.append_assoc, hk]

end LacksEnd

/-! ## Leaving out an `END` of a type

  If the record that lost its `END` is inside of another one, it takes the `END` of that one, and so the
  outermost record is the one that is left open. -/

section

variable {u v w w' : List Token.Kind}

/-- A field in whose type a record is left open. -/
theorem LeavesOpen.field {names : IdentList} (hu : IsIdentList u names)
    (h : LeavesOpen IsType IsEntryList w) : LeavesOpen IsEntry IsEntryList (u ++ symbol .colon :: w) := by
  have hfield : LeavesOpen IsEntry IsEntryList ((u ++ [symbol .colon]) ++ (w ++ [])) :=
    h.between (fun x t ht => ⟨_, by simpa using IsEntry.fields hu ht⟩)
      fun x l hx => ⟨l, by rwa [List.append_nil]⟩
  simpa using hfield

/-- An entry in which a record is left open, without anything behind it. -/
theorem LeavesOpen.one (h : LeavesOpen IsEntry IsEntryList w) : LeavesOpen IsEntryList IsEntries w := by
  have hone : LeavesOpen IsEntryList IsEntries ([] ++ (w ++ [])) :=
    h.between (fun _ _ he => ⟨_, .one he⟩) fun x l hx => ⟨l, by simpa using hx.isEntries⟩
  simpa using hone

/-- The last semicolon moves into the record that is left open in front of it. -/
theorem LeavesOpen.last (h : LeavesOpen IsEntry IsEntryList w) :
    LeavesOpen IsEntryList IsEntries (w ++ [symbol .semicolon]) :=
  show LeavesOpen IsEntryList IsEntries ([] ++ (w ++ [symbol .semicolon])) from
    h.between (fun _ _ he => ⟨_, .one he⟩) fun _ l hx => ⟨l, hx.isEntries_concat⟩

/-- The entries that are still to come move into the record that is left open in front of them. -/
theorem LeavesOpen.append {l : List FieldList} (h : LeavesOpen IsEntry IsEntryList w)
    (hv : IsEntries v l) : LeavesOpen IsEntryList IsEntries (w ++ symbol .semicolon :: v) :=
  show LeavesOpen IsEntryList IsEntries ([] ++ (w ++ symbol .semicolon :: v)) from
    h.between (fun _ _ he => ⟨_, .one he⟩) fun _ l' hx => ⟨l' ++ l, hx.isEntries_append hv⟩

/-- Entries in front of the one in which a record is left open stay where they are. -/
theorem LeavesOpen.cons {e : FieldList} (hu : IsEntry u e) (h : LeavesOpen IsEntryList IsEntries w) :
    LeavesOpen IsEntryList IsEntries (u ++ symbol .semicolon :: w) := by
  have hcons : LeavesOpen IsEntryList IsEntries ((u ++ [symbol .semicolon]) ++ (w ++ [])) :=
    h.between (fun x l hx => ⟨e :: l, by simpa using Separated.more hu hx⟩)
      fun x l hx => ⟨l, by rwa [List.append_nil]⟩
  simpa using hcons

/-- The record around entries in which one is left open is left open itself: its `END` closes the inner
one. -/
theorem LeavesOpen.record (h : LeavesOpen IsEntryList IsEntries w) :
    IsOpenType (word .RECORD :: (w ++ [word .END])) := by
  obtain ⟨x, v, l, rfl, hv, hclose⟩ := h
  obtain ⟨l', hl'⟩ := hclose v l hv
  exact .record (l := l') (by simpa using hl')

/-- Without one of its `END`s, a type is one whose outermost record is not closed. -/
theorem IsType.isOpenType {t : TypeExpr} (hw : IsType w t) (hcase : word .CASE ∉ w)
    (h : LacksEnd w w') : IsOpenType w' := by
  refine @IsType.rec (fun w _ _ => word .CASE ∉ w → ∀ w', LacksEnd w w' → IsOpenType w')
    (fun w _ _ => word .CASE ∉ w → ∀ w', LacksEnd w w' → LeavesOpen IsEntryList IsEntries w')
    (fun w _ _ => word .CASE ∉ w → ∀ w', LacksEnd w w' → LeavesOpen IsEntry IsEntryList w')
    (fun _ _ _ => True) (fun _ _ _ => True) (fun _ _ _ => True) ?simple ?array ?record
    ?set ?pointer ?procedure ?procedureWith ?one ?last ?more ?fields ?variants ?arm ?none ?some
    ?firstArm ?arms _ _ hw hcase w' h
  case simple => exact fun hw _ w' h => absurd hw.isFlat h.not_isFlat
  case array =>
    intro u v indexes element hu _ ih hcase w' h
    obtain ⟨x, hx, rfl⟩ := h.of_cons (by decide)
    obtain ⟨y, hy, rfl⟩ := hx.of_flat_append (hu.isFlat rfl fun _ _ => IsSimpleType.isFlat)
    obtain ⟨z, hz, rfl⟩ := hy.of_cons (by decide)
    exact .array hu (ih (fun hmem => hcase (by simp [hmem])) z hz)
  case record =>
    intro w entries hw ih hcase w' h
    rw [← List.cons_append] at h
    rcases h.of_concat with ⟨rfl, hlast⟩ | ⟨x, hx, rfl⟩
    · refine .record (hw.isEntryList fun hw => hlast ?_)
      rw [List.getLast?_cons, hw]
      rfl
    · obtain ⟨y, hy, rfl⟩ := hx.of_cons (by decide)
      exact (ih (fun hmem => hcase (by simp [hmem])) y hy).record
  case set =>
    intro w base hw _ w' h
    exact (h.not_isFlat (List.forall_mem_cons.2 ⟨rfl, List.forall_mem_cons.2 ⟨rfl, hw.isFlat⟩⟩)).elim
  case pointer =>
    intro w target _ ih hcase w' h
    obtain ⟨x, hx, rfl⟩ := h.of_cons (by decide)
    obtain ⟨y, hy, rfl⟩ := hx.of_cons (by decide)
    exact .pointer (ih (fun hmem => hcase (by simp [hmem])) y hy)
  case procedure => exact fun _ w' h => absurd (by decide) h.not_isFlat
  case procedureWith =>
    intro w formals hw _ w' h
    exact (h.not_isFlat (List.forall_mem_cons.2 ⟨rfl, hw.isFlat⟩)).elim
  case one => exact fun _ ih hcase w' h => (ih hcase w' h).one
  case last =>
    intro w e _ ih hcase w' h
    rcases h.of_append with ⟨x, hx, rfl⟩ | ⟨x, hx, -⟩
    · exact (ih (fun hmem => hcase (by simp [hmem])) x hx).last
    · exact absurd (by decide) hx.not_isFlat
  case more =>
    intro u v e l hu hv ihu ihv hcase w' h
    rcases h.of_append with ⟨x, hx, rfl⟩ | ⟨x, hx, rfl⟩
    · exact (ihu (fun hmem => hcase (by simp [hmem])) x hx).append hv
    · obtain ⟨y, hy, rfl⟩ := hx.of_cons (by decide)
      exact .cons hu (ihv (fun hmem => hcase (by simp [hmem])) y hy)
  case fields =>
    intro u v names type hu _ ih hcase w' h
    obtain ⟨x, hx, rfl⟩ := h.of_flat_append (isFlat_exprClosed.identList hu)
    obtain ⟨y, hy, rfl⟩ := hx.of_cons (by decide)
    exact .field hu (ih (fun hmem => hcase (by simp [hmem])) y hy).leavesOpen
  case variants => exact fun _ _ _ _ _ hcase => absurd List.mem_cons_self hcase
  -- arms and ELSE parts stand in variant parts only
  all_goals intros; trivial

/-- Without one of its `END`s, a declaration of a type still has its name and its last semicolon. -/
theorem IsTypeItem.isOpenType {i : TypeItem} (hw : IsTypeItem w i) (hcase : word .CASE ∉ w)
    (h : LacksEnd w w') : ∃ text x,
      w' = .name text :: symbol .equal :: (x ++ [symbol .semicolon]) ∧ IsOpenType x := by
  cases hw with
  | item hu hv =>
    cases hu with
    | name text =>
      obtain ⟨x, hx, rfl⟩ := h.of_flat_append (List.forall_mem_singleton.2 rfl)
      obtain ⟨y, hy, rfl⟩ := hx.of_cons (by decide)
      rcases hy.of_append with ⟨z, hz, rfl⟩ | ⟨z, hz, -⟩
      · exact ⟨text, z, rfl, hv.isOpenType (fun hmem => hcase (by simp [hmem])) hz⟩
      · exact absurd (by decide) hz.not_isFlat

end

end Modula

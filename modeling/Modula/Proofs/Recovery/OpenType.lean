import Modula.Proofs.Grammar.Unclosed
import Modula.Proofs.Recovery.Notes
/-!
# Reading a type that is not closed

  The entries of a record end where a declaration begins, also behind a semicolon.  So if the outermost
  record of a type is not closed, and a declaration begins behind the semicolon that the type should have
  ended with, then all entries are read, and what is missing is their `END`.  The error is about that
  record, and the cursor is left in front of the declaration (`typeItem_of_lacksEnd`).
-/

namespace Modula

open Token.Kind (word symbol)

/-! ## The error -/

/-- That a record is not closed, of which this is the word `RECORD`, at the first token of a declaration. -/
def SyntaxError.ofUnclosed (opener next : Token) (more : List Token) : SyntaxError :=
  ⟨.unterminated .record opener next.kind, next, (next :: more).length, .recordType⟩

/-- The first token that opens a record. -/
def firstRecord? (tokens : List Token) : Option Token :=
  tokens.find? fun t => t.kind == word .RECORD

section

variable {t : Token} {us vs : List Token}

theorem firstRecord?_cons_of_ne (h : t.kind ≠ word .RECORD) : firstRecord? (t :: us) = firstRecord? us :=
  List.find?_cons_of_neg (by simpa using h)

theorem firstRecord?_append_of_isFlat (h : ∀ k ∈ us.map Token.kind, k.isFlat = true) :
    firstRecord? (us ++ vs) = firstRecord? vs := by
  have hnone : us.find? (fun t => t.kind == word .RECORD) = none := by
    refine List.find?_eq_none.2 fun t ht hrecord => ?_
    have hflat := h t.kind (List.mem_map_of_mem ht)
    rw [beq_iff_eq.1 hrecord] at hflat
    cases hflat
  rw [firstRecord?, List.find?_append, hnone]
  rfl

theorem firstRecord?_append_of_some (h : firstRecord? us = some t) : firstRecord? (us ++ vs) = some t := by
  rw [firstRecord?, List.find?_append, show us.find? _ = some t from h]
  rfl

/-- A token that opens no record may be left out. -/
theorem firstRecord?_leave_out (h : t.kind ≠ word .RECORD) :
    firstRecord? (us ++ t :: vs) = firstRecord? (us ++ vs) := by
  rw [firstRecord?, firstRecord?, List.find?_append, List.find?_append]
  exact congrArg _ (firstRecord?_cons_of_ne h)

end

/-! ## The next declaration -/

/-- An item, a section or the body begins with these tokens. -/
def BeginsDeclaration (ks : List Token.Kind) : Prop :=
  (∃ text more, ks = .name text :: symbol .equal :: more) ∨
    ∃ k more, ks = k :: more ∧ (k = word .CONST ∨ k = word .TYPE ∨ k = word .BEGIN)

theorem BeginsDeclaration.beginsDeclaration {c : Cursor} (h : BeginsDeclaration c.kinds) :
    c.beginsDeclaration = true := by
  unfold Cursor.beginsDeclaration
  rcases h with ⟨text, more, h⟩ | ⟨k, more, h, hk⟩
  · rw [Cursor.kind_of_kinds h]
    dsimp only
    rw [Cursor.kindAfter_eq_upcoming, h]
    rfl
  · rw [Cursor.kind_of_kinds h]
    rcases hk with rfl | rfl | rfl <;> rfl

/-- Entries end where a declaration begins. -/
theorem BeginsDeclaration.entriesEnd {ks : List Token.Kind} (h : BeginsDeclaration ks) :
    Parser.EntriesEnd ks := by
  rintro c rfl
  have hc := h.beginsDeclaration
  unfold Cursor.endsEntries
  split
  · rfl
  · rfl
  · rfl
  · rfl
  · exact hc

/-- No declaration begins with `END`. -/
theorem BeginsDeclaration.ne_end {k : Token.Kind} {ks : List Token.Kind}
    (h : BeginsDeclaration (k :: ks)) : k ≠ word .END := by
  rintro rfl
  rcases h with ⟨text, more, h⟩ | ⟨k, more, h, hk⟩
  · cases h
  · cases h
    rcases hk with hk | hk | hk <;> cases hk

/-! ## Types -/

namespace Parser

section

variable {construct : Construct} {c : Cursor}

/-- An array type is read to its type of elements, and goes wrong with it. -/
theorem arrayTypeWith_of_error {head last : Token} {us behind : List Token} {indexes : List TypeExpr}
    (hhead : head.kind = word .ARRAY) (hlast : last.kind = word .OF)
    (hus : Separated (symbol .comma) IsSimpleType (us.map Token.kind) indexes)
    (hc : c.rest = head :: (us ++ last :: behind)) :
    ∃ d : Cursor, d.rest = behind ∧ ∀ {type : Parser TypeExpr} {e : SyntaxError} {c' : Cursor},
      type .arrayType d = .error e c' → arrayTypeWith type construct c = .error e c' := by
  have hadvance : c.advance.rest = us ++ last :: behind := by rw [Cursor.rest_advance, hc, List.tail_cons]
  -- The index types are sound, so reading comes to the element type.
  obtain ⟨indexes', d, hrun, -, hd⟩ := sepBy_readsAll (n := us.length) (by decide)
    (simpleType_readsAll _) .arrayType (Cursor.kinds_of_rest hadvance) hus (by rw [List.length_map])
    (show last.kind ≠ symbol .period ∧ last.kind ≠ symbol .comma by rw [hlast]; decide)
  have hrest := (sepBy_tracks (by decide) simpleType_tracks).rest_eq hrun hadvance hd
  refine ⟨d.advance, by rw [Cursor.rest_advance, hrest, List.tail_cons], fun herror => ?_⟩
  rw [arrayTypeWith, within_apply, bind_of_ok (expect_of_kind ((Cursor.kind_of_rest hc).trans hhead)),
    bind_of_ok hrun]
  exact (bind_of_ok (expect_of_kind ((Cursor.kind_of_rest hrest).trans hlast))).trans
    (bind_of_error herror _)

/-- A pointer type is read to the type that it points to, and goes wrong with it. -/
theorem pointerTypeWith_of_error {head last : Token} {behind : List Token}
    (hhead : head.kind = word .POINTER) (hlast : last.kind = word .TO)
    (hc : c.rest = head :: last :: behind) :
    ∃ d : Cursor, d.rest = behind ∧ ∀ {type : Parser TypeExpr} {e : SyntaxError} {c' : Cursor},
      type .pointerType d = .error e c' → pointerTypeWith type construct c = .error e c' := by
  have hadvance : c.advance.rest = last :: behind := by rw [Cursor.rest_advance, hc, List.tail_cons]
  refine ⟨c.advance.advance, by rw [Cursor.rest_advance, hadvance, List.tail_cons], fun herror => ?_⟩
  rw [pointerTypeWith, within_apply, bind_of_ok (expect_of_kind ((Cursor.kind_of_rest hc).trans hhead)),
    bind_of_ok (expect_of_kind ((Cursor.kind_of_rest hadvance).trans hlast))]
  exact bind_of_error herror _

variable {semicolon next : Token} {more w : List Token} (hsemicolon : semicolon.kind = symbol .semicolon)
  (hnext : BeginsDeclaration ((next :: more).map Token.kind))

include hsemicolon hnext

/-- The entries of a record are all read, and then their `END` is missing. -/
theorem recordTypeWith_of_isEntryList {n : Nat} {entry : Parser FieldList}
    (he : entry.ReadsAll n (FieldList.relabel .forget) IsEntry EndsType)
    (htracks : entry.Tracks IsEntry.words) {opener : Token} {l : List FieldList}
    (hopener : opener.kind = word .RECORD) (hw : IsEntryList (w.map Token.kind) l) (hn : w.length < n)
    (hc : c.rest = opener :: (w ++ semicolon :: next :: more)) :
    ∃ c', recordTypeWith entry construct c = .error (.ofUnclosed opener next more) c' ∧
      c'.rest = next :: more := by
  -- With the semicolon behind them the entries are still entries, the last of which is empty.
  have hentries : IsEntries ((w ++ [semicolon]).map Token.kind) l := by
    rw [List.map_append, List.map_singleton, hsemicolon]
    exact hw.isEntries_concat
  have hlen : ((w ++ [semicolon]).map Token.kind).length ≤ n := by
    rwa [List.length_map, List.length_append]
  have hadvance : c.advance.rest = (w ++ [semicolon]) ++ next :: more := by
    rw [Cursor.rest_advance, hc, List.append_assoc]
    rfl
  obtain ⟨l', d, hrun, -, hd⟩ := entriesWith_reads he .recordType (Cursor.kinds_of_rest hadvance)
    hentries hlen hnext.entriesEnd
  have hrest : d.rest = next :: more := (entriesWith_tracks htracks).rest_eq hrun hadvance hd
  have hopen : c.kind = Bracket.record.opener := (Cursor.kind_of_rest hc).trans hopener
  -- Where the record should be closed a declaration begins.
  have hclose : d.kind ≠ Bracket.record.closer := by
    rw [Cursor.kind_of_rest hrest]
    exact hnext.ne_end
  refine ⟨d, ?_, hrest⟩
  rw [recordTypeWith, within_apply, bind_of_ok (expect_of_kind hopen), bind_of_ok hrun]
  refine bind_of_error ?_ _
  rw [close, if_neg hclose, fail, failAt, SyntaxError.ofUnclosed, Cursor.kind_of_rest hrest]
  simp only [Cursor.token, Cursor.remaining, hrest, hc, List.head?_cons, Option.getD_some]

/-- On the way to the record there are arrays and pointers only. -/
theorem typeAt_of_isOpenType (hw : IsOpenType (w.map Token.kind)) {budget : Nat}
    (hb : w.length < budget) (hc : c.rest = w ++ semicolon :: next :: more) :
    ∃ opener c', firstRecord? w = some opener ∧
      typeAt budget construct c = .error (.ofUnclosed opener next more) c' ∧ c'.rest = next :: more := by
  generalize hks : w.map Token.kind = ks at hw
  -- By induction on how the type is left open; each constructor takes a token at least.
  induction hw generalizing w budget construct c with
  | record hentries =>
    obtain ⟨opener, w, rfl, hopener, rfl⟩ := List.map_eq_cons_iff.1 hks
    rw [List.length_cons] at hb
    obtain ⟨budget, rfl⟩ : ∃ budget', budget = budget' + 1 := ⟨budget - 1, by omega⟩
    obtain ⟨c', herror, hc'⟩ := recordTypeWith_of_isEntryList hsemicolon hnext
      (typeAt_readsAll budget).2 (typeAt_tracks budget).2 hopener hentries (by omega) hc
    refine ⟨opener, c', List.find?_cons_of_pos (beq_iff_eq.2 hopener), ?_, hc'⟩
    rw [typeAt, typeWith, kind_bind_of_kind ((Cursor.kind_of_rest hc).trans hopener)]
    exact herror
  | array hus _ ih =>
    obtain ⟨head, w, rfl, hhead, hw⟩ := List.map_eq_cons_iff.1 hks
    obtain ⟨us, ws, rfl, rfl, hws⟩ := List.map_eq_append_iff.1 hw
    obtain ⟨last, vs, rfl, hlast, rfl⟩ := List.map_eq_cons_iff.1 hws
    rw [List.length_cons, List.length_append, List.length_cons] at hb
    rw [List.cons_append, List.append_assoc, List.cons_append] at hc
    obtain ⟨budget, rfl⟩ : ∃ budget', budget = budget' + 1 := ⟨budget - 1, by omega⟩
    have hlen : vs.length < budget := by omega
    obtain ⟨d, hd, harray⟩ := arrayTypeWith_of_error hhead hlast hus hc
    obtain ⟨opener, c', hopener, herror, hc'⟩ := ih hlen hd rfl
    refine ⟨opener, c', ?_, ?_, hc'⟩
    -- No `RECORD` stands in front of the element type.
    · rw [firstRecord?_cons_of_ne (by rw [hhead]; decide), firstRecord?_append_of_isFlat
        (hus.isFlat rfl fun _ _ => IsSimpleType.isFlat), firstRecord?_cons_of_ne (by rw [hlast]; decide)]
      exact hopener
    · rw [typeAt, typeWith, kind_bind_of_kind ((Cursor.kind_of_rest hc).trans hhead)]
      exact harray herror
  | pointer _ ih =>
    obtain ⟨head, w, rfl, hhead, hw⟩ := List.map_eq_cons_iff.1 hks
    obtain ⟨last, w, rfl, hlast, rfl⟩ := List.map_eq_cons_iff.1 hw
    rw [List.length_cons, List.length_cons] at hb
    rw [List.cons_append, List.cons_append] at hc
    obtain ⟨budget, rfl⟩ : ∃ budget', budget = budget' + 1 := ⟨budget - 1, by omega⟩
    have hlen : w.length < budget := by omega
    obtain ⟨d, hd, hpointer⟩ := pointerTypeWith_of_error hhead hlast hc
    obtain ⟨opener, c', hopener, herror, hc'⟩ := ih hlen hd rfl
    refine ⟨opener, c', ?_, ?_, hc'⟩
    · rw [firstRecord?_cons_of_ne (by rw [hhead]; decide),
        firstRecord?_cons_of_ne (by rw [hlast]; decide)]
      exact hopener
    · rw [typeAt, typeWith, kind_bind_of_kind ((Cursor.kind_of_rest hc).trans hhead)]
      exact hpointer herror

end

/-- Without one of its `END`s, a declaration of a type goes wrong in front of the next declaration. -/
theorem typeItem_of_lacksEnd {construct : Construct} {c : Cursor} {next : Token} {w more : List Token}
    {whole : List Token.Kind} {i : TypeItem} (hi : IsTypeItem whole i) (hcase : word .CASE ∉ whole)
    (hw : LacksEnd whole (w.map Token.kind))
    (hnext : BeginsDeclaration ((next :: more).map Token.kind)) (hc : c.rest = w ++ next :: more) :
    ∃ opener c', firstRecord? w = some opener ∧
      typeItem construct c = .error (.ofUnclosed opener next more) c' ∧ c'.rest = next :: more := by
  obtain ⟨text, x, hkinds, hx⟩ := hi.isOpenType hcase hw
  obtain ⟨name, w, rfl, hname, hw⟩ := List.map_eq_cons_iff.1 hkinds
  obtain ⟨equal, w, rfl, hequal, hw⟩ := List.map_eq_cons_iff.1 hw
  obtain ⟨w, last, rfl, rfl, hlast⟩ := List.map_eq_append_iff.1 hw
  obtain ⟨semicolon, last, rfl, hsemicolon, hnil⟩ := List.map_eq_cons_iff.1 hlast
  obtain rfl := List.map_eq_nil_iff.1 hnil
  rw [List.cons_append, List.cons_append, List.append_assoc, List.singleton_append] at hc
  -- In front of the type are the name and the equal sign.
  have h₁ : c.advance.rest = equal :: (w ++ semicolon :: next :: more) := by
    rw [Cursor.rest_advance, hc, List.tail_cons]
  have h₂ : c.advance.advance.rest = w ++ semicolon :: next :: more := by
    rw [Cursor.rest_advance, h₁, List.tail_cons]
  have hb : w.length < c.advance.advance.remaining := by
    rw [Cursor.remaining, h₂, List.length_append, List.length_cons]
    omega
  obtain ⟨opener, c', hopener, herror, hc'⟩ := typeAt_of_isOpenType hsemicolon hnext hx hb h₂
  refine ⟨opener, c', ?_, ?_, hc'⟩
  · rw [firstRecord?_cons_of_ne (by simp [hname]), firstRecord?_cons_of_ne (by rw [hequal]; decide)]
    exact firstRecord?_append_of_some hopener
  · rw [typeItem, bind_of_ok (ident_of_kind ((Cursor.kind_of_rest hc).trans hname)),
      bind_of_ok (expect_of_kind ((Cursor.kind_of_rest h₁).trans hequal))]
    refine bind_of_error ?_ _
    rw [type, bind_of_ok (remaining_apply construct _)]
    exact herror

end Parser

end Modula

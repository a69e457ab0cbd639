import Modula.Proofs.Reading.Unit
import Modula.Proofs.Recovery.Course
import Modula.Proofs.Recovery.Fault
import Modula.Proofs.Tracking.Item
/-!
# Broken phrases

  Where a broken phrase is tried, there is an error about one of its tokens (`IsBroken.error`), and
  reading goes on right behind the phrase (`PassesBroken`).

  The error lies in the phrase because parsers find errors early: what they took is the beginning of a
  sentence.  If it reached behind the last semicolon of the broken phrase, then the phrase as a whole
  would begin a sentence, and a sentence ends with its first semicolon outside of brackets; so the
  phrase would be a sentence, and would not have been rejected.
-/

namespace Modula

open Token.Kind (word symbol)

/-! ## Phrases that end with their semicolon -/

/-- Every sentence ends with a semicolon, and what is before it is such a body.  A first token is part of
the body, and no body goes on behind another one and a semicolon. -/
structure EndsWithSemicolon (starts : Token.Kind → Prop) (body : List Token.Kind → Prop)
    (L : Language Token.Kind) : Prop where
  cons : ∀ k ks, starts k → body ks → body (k :: ks)
  split : ∀ w ∈ L, ∃ u, w = u ++ [symbol .semicolon] ∧ body u
  first : ∀ u v, body u → body v → ¬ u ++ [symbol .semicolon] <+: v

/-- A body with its semicolon is at the beginning of a sentence only if it is the sentence. -/
theorem EndsWithSemicolon.eq_of_prefix {starts : Token.Kind → Prop} {body : List Token.Kind → Prop}
    {L : Language Token.Kind} (h : EndsWithSemicolon starts body L) {u w : List Token.Kind}
    (hu : body u) (hw : w ∈ L) (hbegins : u ++ [symbol .semicolon] <+: w) :
    u ++ [symbol .semicolon] = w := by
  obtain ⟨v, rfl, hv⟩ := h.split w hw
  rcases List.prefix_concat_iff.1 hbegins with heq | hbegins
  · exact heq
  · exact absurd hbegins (h.first u v hu hv)

theorem first_of_depthBehind (u v : List Token.Kind) (hu : depthBehind 0 u = some 0)
    (hv : depthBehind 0 v = some 0) : ¬ u ++ [symbol .semicolon] <+: v := by
  rintro ⟨w, rfl⟩
  obtain ⟨m, hm⟩ := depthBehind_of_append hv
  rw [depthBehind_append, hu] at hm
  cases hm

theorem depthBehind_of_isName (k : Token.Kind) (ks : List Token.Kind) (hk : k.isName = true)
    (hks : depthBehind 0 ks = some 0) : depthBehind 0 (k :: ks) = some 0 := by
  rw [depthBehind_cons, Token.Kind.depthAfter_of_isName hk]
  exact hks

theorem endsWithSemicolon_constItem : EndsWithSemicolon (fun k => k.isName = true)
    (fun ks => depthBehind 0 ks = some 0) IsConstItem.words where
  cons := depthBehind_of_isName
  split := by
    rintro w ⟨i, hw⟩
    obtain ⟨u, rfl, hu⟩ := hw.keepsDepth
    exact ⟨u, rfl, hu le_rfl⟩
  first := first_of_depthBehind

theorem endsWithSemicolon_typeItem : EndsWithSemicolon (fun k => k.isName = true)
    (fun ks => depthBehind 0 ks = some 0) IsTypeItem.words where
  cons := depthBehind_of_isName
  split := by
    rintro w ⟨i, hw⟩
    obtain ⟨u, rfl, hu⟩ := hw.keepsDepth
    exact ⟨u, rfl, hu le_rfl⟩
  first := first_of_depthBehind

theorem endsWithSemicolon_import : EndsWithSemicolon (fun k => k = word .IMPORT ∨ k = word .FROM)
    (fun ks => ∀ k ∈ ks, k.endsBrokenImport = false) IsImport.words where
  cons := by
    rintro k ks (rfl | rfl) hks <;> exact List.forall_mem_cons.2 ⟨rfl, hks⟩
  split := by
    rintro w ⟨i, hw⟩
    exact hw.endsBrokenImport
  first := by
    intro u v _ hv hbegins
    have hmem := hbegins.subset (List.mem_append_right u (List.mem_singleton_self (symbol .semicolon)))
    have hends := hv _ hmem
    cases hends

/-! ## The error of a broken phrase -/

/-- The longer one of two beginnings of a list goes on with what comes behind the shorter one. -/
theorem exists_split {α : Type} {us vs xs ys : List α} (h : us ++ vs = xs ++ ys)
    (hlt : us.length < xs.length) : ∃ t rest, xs = us ++ t :: rest ∧ vs = t :: (rest ++ ys) := by
  rcases List.append_eq_append_iff.1 h with ⟨more, rfl, hvs⟩ | ⟨more, rfl, -⟩
  · cases more with
    | nil =>
      rw [List.append_nil] at hlt
      exact absurd hlt (Nat.lt_irrefl _)
    | cons t rest => exact ⟨t, rest, rfl, hvs⟩
  · rw [List.length_append] at hlt
    omega

/-- Whether the token may stand in the tag of a variant part. -/
def Token.Kind.isTagPart (k : Token.Kind) : Bool :=
  k.isName || k == symbol .period || k == symbol .colon

theorem isTagPart_of_isQualident {w : List Token.Kind} {q : Qualident} (hw : IsQualident w q) :
    ∀ k ∈ w, k.isTagPart = true := by
  have hseparated : ∀ {w : List Token.Kind} {l : List Ident},
      Separated (symbol .period) IsIdent w l → ∀ k ∈ w, k.isTagPart = true := by
    intro w l hw
    induction hw with
    | one hi =>
      cases hi
      simp [Token.Kind.isTagPart, Token.Kind.isName]
    | more hi _ ih =>
      cases hi
      simpa [Token.Kind.isTagPart, Token.Kind.isName] using ih
  cases hw with
  | parts hw => exact hseparated hw

theorem Overruns.isTagPart {u x : List Token.Kind} (h : Overruns u x) :
    ∀ k ∈ x, k.isTagPart = true := by
  rcases h with rfl | ⟨-, w, q, rfl, hw, -⟩
  · exact List.forall_mem_nil _
  · exact List.forall_mem_append.2 ⟨isTagPart_of_isQualident hw, List.forall_mem_singleton.2 rfl⟩

/-- Parts of a tag do not reach behind a token that is none. -/
theorem Cursor.Reaches.atEnd_eq_false {c d : Cursor} {w : List Token.Kind} (h : c.Reaches w d)
    (hw : ∀ k ∈ w, k.isTagPart = true) {t : Token} (ht : t ∈ c.rest)
    (hk : t.kind.isTagPart = false) : d.atEnd = false := by
  obtain ⟨-, ts, hrest, rfl⟩ := h
  by_contra hend
  have hnil : d.rest = [] := by simpa [Cursor.atEnd] using hend
  rw [hrest, hnil, List.append_nil] at ht
  have hpart := hw _ (List.mem_map_of_mem ht)
  rw [hk] at hpart
  cases hpart

namespace IsBroken

variable {α β : Type} {starts : Token.Kind → Prop} {body : List Token.Kind → Prop}
  {construct : Construct} {item : Parser α} {stops : Cursor → Prop} {behind tokens : List Token}
  {f : α → β} {phrase : Phrase β}

/-- The tokens of a broken phrase are a body and a semicolon. -/
theorem exists_body (h : IsBroken starts body construct item stops behind tokens)
    (hends : EndsWithSemicolon starts body phrase.words) :
    ∃ inner last, tokens = inner ++ [last] ∧ body (inner.map Token.kind) ∧
      last.kind = symbol .semicolon := by
  obtain ⟨head, inner, last, rfl, hhead, hbody, hlast⟩ := h.shape
  exact ⟨head :: inner, last, rfl, hends.cons _ _ hhead hbody, hlast⟩

/-- What the parser rejects is no sentence. -/
theorem not_mem_words (hreads : ∀ n, item.ReadsAll n f phrase fun _ => True) {c c' : Cursor}
    {e : SyntaxError} (hc : c.rest = tokens ++ behind) (hfail : item construct c = .error e c') :
    tokens.map Token.kind ∉ phrase.words := by
  rintro ⟨b, hb⟩
  obtain ⟨a, c'', hok, -⟩ := hreads _ construct (Cursor.kinds_of_rest hc) hb le_rfl trivial
  rw [hfail] at hok
  cases hok

/-- What begins a sentence is shorter than a broken phrase. -/
theorem length_lt (h : IsBroken starts body construct item stops behind tokens)
    (hends : EndsWithSemicolon starts body phrase.words) (hno : tokens.map Token.kind ∉ phrase.words)
    {ts rest : List Token} (hbegun : Begun phrase.words (ts.map Token.kind))
    (hts : ts ++ rest = tokens ++ behind) : ts.length < tokens.length := by
  obtain ⟨inner, last, hsplit, hbody, hlast⟩ := h.exists_body hends
  obtain ⟨v, hv⟩ := hbegun
  have hkinds : tokens.map Token.kind = inner.map Token.kind ++ [symbol .semicolon] := by
    rw [hsplit, List.map_append, List.map_singleton, hlast]
  by_contra hlong
  -- else the phrase would begin the sentence, and so be all of it
  have hbegins : tokens <+: ts :=
    List.prefix_of_prefix_length_le (hts ▸ List.prefix_append tokens behind)
      (List.prefix_append ts rest) (Nat.le_of_not_lt hlong)
  have hbegin := (hbegins.map Token.kind).trans (List.prefix_append _ v)
  apply hno
  rw [hkinds] at hbegin ⊢
  rw [hends.eq_of_prefix hbody hv hbegin]
  exact hv

/-- The error is about a token of the broken phrase, and some of the source is left when it is found. -/
theorem error (h : IsBroken starts body construct item stops behind tokens)
    (hends : EndsWithSemicolon starts body phrase.words)
    (hreads : ∀ n, item.ReadsAll n f phrase fun _ => True) (htracks : item.Tracks phrase.words)
    {c : Cursor} (hc : c.rest = tokens ++ behind) :
    ∃ e c', item construct c = .error e c' ∧ e.LiesOn tokens behind ∧ c'.atEnd = false ∧
      stops c' := by
  obtain ⟨e, c', hfail, hstops⟩ := h.rejected c hc
  obtain ⟨u, d, x, ⟨-, ts, hrest, rfl⟩, hbegun, he, hx, hover, -⟩ :=
    (htracks construct c).fails hfail
  have hshort := h.length_lt hends (not_mem_words hreads hc hfail) hbegun (hrest ▸ hc)
  obtain ⟨t, rest, htokens, hd⟩ := exists_split (hrest ▸ hc) hshort
  refine ⟨e, c', hfail, ⟨ts, t, rest, htokens, ?_, ?_⟩, ?_, hstops⟩
  · rw [he.1, Cursor.token, hd]
    rfl
  · rw [he.2, Cursor.remaining, hd]
  · obtain ⟨inner, last, hsplit, -, hlast⟩ := h.exists_body hends
    have hmem : last ∈ d.rest := by
      have hgetLast : (ts ++ t :: rest).getLast? = some last := by
        rw [← htokens, hsplit, List.getLast?_concat]
      rw [List.getLast?_append_of_ne_nil _ (List.cons_ne_nil _ _)] at hgetLast
      rw [hd, ← List.cons_append]
      exact List.mem_append_left behind (List.mem_of_getLast? hgetLast)
    exact hx.atEnd_eq_false hover.isTagPart hmem (hlast ▸ rfl)

theorem starts_kind (h : IsBroken starts body construct item stops behind tokens) {c : Cursor}
    (hc : c.rest = tokens ++ behind) : starts c.kind := by
  obtain ⟨head, inner, last, rfl, hhead, -⟩ := h.shape
  rw [Cursor.kind, hc]
  exact hhead

end IsBroken

/-! ## Behind a broken phrase -/

/-- Where a broken phrase is tried, there is an error about one of its tokens, some of the source is
left, and reading goes on right behind the phrase. -/
def PassesBroken {α : Type} (starts : Token.Kind → Prop) (construct : Construct) (item : Parser α)
    (resume : Cursor → Cursor → Cursor) (broken : (behind tokens : List Token) → Prop) : Prop :=
  ∀ ⦃behind tokens : List Token⦄ ⦃c : Cursor⦄, broken behind tokens → c.rest = tokens ++ behind →
    starts c.kind ∧ ∃ e c', item construct c = .error e c' ∧ e.LiesOn tokens behind ∧
      c'.atEnd = false ∧ (resume c c').rest = behind

theorem drop_behind (us : List Token) (t : Token) (ts : List Token) :
    (us ++ t :: ts).drop (us.length + 1) = ts := by
  rw [← List.drop_drop, List.drop_left, List.drop_one, List.tail_cons]

theorem importClause_passesBroken :
    PassesBroken (fun k => k = word .IMPORT ∨ k = word .FROM) .importClause Parser.importClause
      (fun start _ => start.afterImport) IsBrokenImport := by
  intro behind tokens c h hc
  have hstarts := h.starts_kind hc
  obtain ⟨e, c', hfail, he, hend, -⟩ := h.error endsWithSemicolon_import
    Parser.importClause_readsAll Parser.importClause_tracks hc
  obtain ⟨inner, last, rfl, hbody, hlast⟩ := h.exists_body endsWithSemicolon_import
  refine ⟨hstarts, e, c', hfail, he, hend, ?_⟩
  rw [Cursor.rest_afterImport hstarts, hc, List.append_assoc, List.singleton_append,
    Skip.importRest_of_semicolon (List.forall_mem_map.1 hbody) hlast, drop_behind]

theorem item_passesBroken {α β : Type} {construct : Construct} {item : Parser α} {f : α → β}
    {phrase : Phrase β}
    (hends : EndsWithSemicolon (fun k => k.isName = true) (fun ks => depthBehind 0 ks = some 0)
      phrase.words)
    (hreads : ∀ n, item.ReadsAll n f phrase fun _ => True) (htracks : item.Tracks phrase.words) :
    PassesBroken (fun k => k.isName = true) construct item Cursor.resume
      (IsBrokenItem construct item) := by
  intro behind tokens c h hc
  have hstarts := h.starts_kind hc
  obtain ⟨e, c', hfail, he, hend, hstops⟩ := h.error hends hreads htracks hc
  obtain ⟨inner, last, rfl, hbody, hlast⟩ := h.exists_body hends
  refine ⟨hstarts, e, c', hfail, he, hend, ?_⟩
  rw [Cursor.resume, if_pos (Or.inr hstops), Cursor.rest_afterDeclaration hstarts, hc,
    List.append_assoc, List.singleton_append, Skip.declarationRest_of_balanced hbody hlast,
    drop_behind]

end Modula

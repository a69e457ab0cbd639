import Modula.Proofs.Reading
import Modula.Proofs.Retelling
/-!
# Readers abreast

  Two readers are run side by side, the second one on tokens that are the retold tokens of the first one.
  They go abreast if they do the same: both end with a value, which is the same one retold, or both end
  with an error, which is the same one retold, and in both cases they end at the same place.

  `Abreast r R begun eats f p p'` says this for readers over any state, with a relation `R` between the
  states.  Two things are kept apart on the way.

  * `begun` — whether some token has been read before, so that the end of it is the same on both sides.
  * `eats` — whether a token has been read at any rate when `p` ends with a value.

  A sequence goes abreast if its parts do (`Abreast.bind`); what comes behind a part that eats may rely
  on tokens having been read (`Abreast.bind_eating`).
-/

namespace Modula

open Token.Kind (word symbol)

/-! ## Two runs

  Two readers go abreast if they end in the same way whenever they begin at related states.  Some of them
  are related only from the first token on, for they look back at the token in front. -/

section

variable {ρ σ α β : Type} {r : Retelling} {R : Bool → σ → σ → Prop} {begun eats : Bool}

/-- Two runs end in the same way. -/
inductive Agree (r : Retelling) (R : Bool → σ → σ → Prop) (begun eats : Bool) (f : α → α) :
    EStateM.Result SyntaxError σ α → EStateM.Result SyntaxError σ α → Prop
  | ok {a a' : α} {s s' : σ} : f a = a' → R (eats || begun) s s' →
    Agree r R begun eats f (.ok a s) (.ok a' s')
  | error {e e' : SyntaxError} {s s' : σ} : e.retell r = e' → R begun s s' →
    Agree r R begun eats f (.error e s) (.error e' s')

/-- From related states on, the two readers end in the same way. -/
def Abreast (r : Retelling) (R : Bool → σ → σ → Prop) (begun eats : Bool) (f : α → α)
    (p p' : ReaderT ρ (EStateM SyntaxError σ) α) : Prop :=
  ∀ ⦃x s s'⦄, R begun s s' → Agree r R begun eats f (p x s) (p' x s')

variable {f : α → α} {h : β → β} {p p' : ReaderT ρ (EStateM SyntaxError σ) α}
  {g g' : α → ReaderT ρ (EStateM SyntaxError σ) β} {x : ρ} {s s' : σ}

/-- A sequence, run: what comes behind starts at the state its first part has left. -/
theorem run_bind (p : ReaderT ρ (EStateM SyntaxError σ) α) (g : α → ReaderT ρ (EStateM SyntaxError σ) β)
    (x : ρ) (s : σ) : (p >>= g) x s = match p x s with
      | .ok a s' => g a x s'
      | .error e s' => .error e s' := by
  show EStateM.bind (p x) (fun a => g a x) s = _
  unfold EStateM.bind
  cases p x s <;> rfl

namespace Agree

/-- What is compared after a token was read is compared in any case. -/
theorem weaken {result result' : EStateM.Result SyntaxError σ α}
    (hR : ∀ s s', R true s s' → R begun s s') (hrun : Agree r R true true f result result') :
    Agree r R begun true f result result' := by
  cases hrun with
  | ok ha hs => exact .ok ha hs
  | error he hs => exact .error he (hR _ _ hs)

/-- A part that need not read a token, and what comes behind it. -/
theorem bind (hp : Agree r R begun false f (p x s) (p' x s'))
    (hg : ∀ a, Abreast r R begun eats h (g a) (g' (f a))) :
    Agree r R begun eats h ((p >>= g) x s) ((p' >>= g') x s') := by
  rw [run_bind, run_bind]
  generalize p x s = result at hp ⊢
  generalize p' x s' = result' at hp ⊢
  cases hp with
  | ok ha hs => subst ha; exact hg _ hs
  | error he hs => exact .error he hs

/-- A part that reads a token, and what comes behind it. -/
theorem bind_eating (hR : ∀ s s', R true s s' → R begun s s')
    (hp : Agree r R begun true f (p x s) (p' x s'))
    (hg : ∀ a, Abreast r R true true h (g a) (g' (f a))) :
    Agree r R begun true h ((p >>= g) x s) ((p' >>= g') x s') := by
  rw [run_bind, run_bind]
  generalize p x s = result at hp ⊢
  generalize p' x s' = result' at hp ⊢
  cases hp with
  | ok ha hs => subst ha; exact (hg _ hs).weaken hR
  | error he hs => exact .error he hs

end Agree

namespace Abreast

/-- To return a value reads nothing, so it may stand anywhere if the values are the same one retold. -/
theorem pure {a a' : α} (ha : f a = a') :
    Abreast r R begun false f (Pure.pure a : ReaderT ρ (EStateM SyntaxError σ) α) (Pure.pure a') :=
  fun _ _ _ hs => .ok ha hs

/-- Where a token was read before, there is no difference between what eats and what does not. -/
theorem pure_begun {a a' : α} (ha : f a = a') :
    Abreast r R true true f (Pure.pure a : ReaderT ρ (EStateM SyntaxError σ) α) (Pure.pure a') :=
  fun _ _ _ hs => .ok ha hs

/-- Parts in sequence; the second one is compared at the value of the first one and the same value
retold. -/
theorem bind (hp : Abreast r R begun false f p p')
    (hg : ∀ a, Abreast r R begun eats h (g a) (g' (f a))) :
    Abreast r R begun eats h (p >>= g) (p' >>= g') := fun _ _ _ hs => (hp hs).bind hg

/-- What eats need not. -/
theorem not_eating (hR : ∀ s s', R true s s' → R begun s s') (hp : Abreast r R begun true f p p') :
    Abreast r R begun false f p p' := by
  intro x s s' hs
  have hrun := hp hs (x := x)
  generalize p x s = result at hrun ⊢
  generalize p' x s' = result' at hrun ⊢
  cases hrun with
  | ok ha hs => exact .ok ha (hR _ _ hs)
  | error he hs => exact .error he hs

/-- Both ask the same question, though about different tokens, and go the same way. -/
theorem ite {P P' : Prop} [Decidable P] [Decidable P'] (hP : P ↔ P')
    {q q' : ReaderT ρ (EStateM SyntaxError σ) α} (hp : Abreast r R begun eats f p p')
    (hq : Abreast r R begun eats f q q') :
    Abreast r R begun eats f (if P then p else q) (if P' then p' else q') := by
  by_cases h : P
  · rwa [if_pos h, if_pos (hP.1 h)]
  · rwa [if_neg h, if_neg (mt hP.2 h)]

end Abreast

end

/-! ## Parsers

  For a parser the relation is that of a retelling: the tokens ahead of the second cursor are those ahead
  of the first one, retold. -/

namespace Parser

variable {α β : Type} {r : Retelling} {begun eats : Bool} {f : α → α} {h : β → β}

/-- The second parser does on retold tokens what the first one does. -/
abbrev Abreast (r : Retelling) (begun eats : Bool) (f : α → α) (p p' : Parser α) : Prop :=
  Modula.Abreast r (Cursor.Retold r) begun eats f p p'

/-- The same for the runs at cursors in front of a token of this kind. -/
def AbreastAt (k : Token.Kind) (r : Retelling) (begun eats : Bool) (f : α → α)
    (p p' : Parser α) : Prop :=
  ∀ ⦃construct c c'⦄, c.kind = k → Cursor.Retold r begun c c' →
    Agree r (Cursor.Retold r) begun eats f (p construct c) (p' construct c')

namespace Abreast

variable {p p' : Parser α} {g g' : α → Parser β}

/-- The weaker claim is about the state in the end: after an error nothing is said of what was read. -/
theorem weaken (hp : Abreast r begun true f p p') : Abreast r begun false f p p' :=
  hp.not_eating fun _ _ hc => hc.weaken begun

/-- Behind a part that eats, some token has been read. -/
theorem and_then (hp : Abreast r begun true f p p')
    (hg : ∀ a, Abreast r true true h (g a) (g' (f a))) :
    Abreast r begun true h (p >>= g) (p' >>= g') :=
  fun _ _ _ hc => (hp hc).bind_eating (fun _ _ hc => hc.weaken begun) hg

/-- A construct is named at an error only, and both name the same one. -/
theorem within (construct : Construct) (hp : Abreast r begun eats f p p') :
    Abreast r begun eats f (within construct p) (Parser.within construct p') := fun _ _ _ hc => hp hc

end Abreast

namespace AbreastAt

variable {k : Token.Kind} {p p' : Parser α} {g g' : α → Parser β}

/-- What goes abreast at every token does so at this one. -/
theorem of_abreast (hp : Abreast r begun eats f p p') : AbreastAt k r begun eats f p p' :=
  fun _ _ _ _ hc => hp hc

/-- The token in front is not touched by the name of the construct. -/
theorem within (construct : Construct) (hp : AbreastAt k r begun eats f p p') :
    AbreastAt k r begun eats f (within construct p) (Parser.within construct p') :=
  fun _ _ _ hk hc => hp hk hc

/-- The kind of the token is known in front of the first part only. -/
theorem and_then (hp : AbreastAt k r begun true f p p')
    (hg : ∀ a, Abreast r true true h (g a) (g' (f a))) :
    AbreastAt k r begun true h (p >>= g) (p' >>= g') :=
  fun _ _ _ hk hc => (hp hk hc).bind_eating (fun _ _ hc => hc.weaken begun) hg

end AbreastAt

/-! ### Steps

  A step looks at the token at hand or at the last one.  What it sees on one side is the retold form of
  what it sees on the other one. -/

/-- An error is placed at the token it found, with the tokens left behind it counted. -/
theorem failAt_abreast {before : Bool} {cause cause' : SyntaxError.Cause} {place place' : Cursor}
    (hplace : Cursor.Retold r before place place') (hcause : cause.retell r = cause') :
    Abreast r begun eats f (failAt place cause) (failAt place' cause') := by
  intro construct c c' hc
  refine .error ?_ hc
  rw [SyntaxError.retell, hcause, hplace.token_eq, hplace.remaining_eq]

/-- An error at the token at hand.  What it says of the kind found there is retold with the kind. -/
theorem fail_abreast {cause cause' : Token.Kind → SyntaxError.Cause}
    (hcause : ∀ k, (cause k).retell r = cause' (r.kind k)) :
    Abreast r begun eats f (fail cause) (fail cause') :=
  fun _ _ _ hc => failAt_abreast hc (hc.kind_eq ▸ hcause _) hc

/-- Budgets are the same, since no token is added or taken away. -/
theorem remaining_abreast : Abreast r begun false id remaining remaining :=
  fun _ _ _ hc => .ok hc.remaining_eq.symm hc

/-- The one look back.  Before the first token a cursor may remember what was read by somebody else. -/
theorem lastEnd_abreast : Abreast r true false r.point lastEnd lastEnd :=
  fun _ _ _ hc => .ok (hc.lastEnd rfl).symm hc

/-- Both number their nodes from the same counter on, seen through the renumbering. -/
theorem freshId_abreast : Abreast r begun false r.id freshId freshId :=
  fun _ c c' hc => .ok hc.nextId.symm (hc.withId (by rw [hc.nextId, r.id_succ]))

/-- To advance over any token, or to stay at the end of input. -/
theorem advance_abreast : Abreast r begun false r.token advance advance :=
  fun _ _ _ hc => .ok hc.token_eq.symm hc.advance

/-- At a token other than the end of input, one has been read afterwards. -/
theorem advance_abreastAt {k : Token.Kind} (hk : k ≠ .eof) :
    AbreastAt k r begun true r.token advance advance :=
  fun _ _ _ hkind hc => .ok hc.token_eq.symm (hc.advance_begun (hkind ▸ hk))

/-- A look at the whole cursor: what is done with it is compared at related cursors. -/
theorem get_bind_abreast {g g' : Cursor → Parser β}
    (hg : ∀ c c', Cursor.Retold r begun c c' → Abreast r begun eats h (g c) (g' c')) :
    Abreast r begun eats h (get >>= g) (get >>= g') := fun _ _ _ hc => hg _ _ hc hc

/-- What is done at a look at the token must not depend on the spelling of an operator. -/
theorem kind_bind_abreast {g g' : Token.Kind → Parser β}
    (hne : g' (symbol .notEqual) = g' (symbol .hash)) (hand : g' (symbol .ampersand) = g' (word .AND))
    (hg : ∀ k, AbreastAt k r begun eats h (g k) (g' k)) :
    Abreast r begun eats h (kind >>= g) (kind >>= g') := by
  intro construct c c' hc
  show Agree r _ begun eats h (g c.kind construct c) (g' c'.kind construct c')
  rw [hc.kind_eq, r.apply_kind g' hne hand]
  exact hg _ rfl hc

section

variable {wanted : Token.Kind} (hw : Retelling.IsPlain wanted) {p p' q q' : Parser α}

include hw

/-- A plain kind is retold as itself, and no other kind is retold as it. -/
theorem kind_iff {c c' : Cursor} (hc : Cursor.Retold r begun c c') :
    c.kind = wanted ↔ c'.kind = wanted := by
  rw [hc.kind_eq, r.kind_eq_iff hw]

/-- What is done at one kind of token, and at all others. -/
theorem kind_ite_abreast (hp : AbreastAt wanted r begun eats f p p') (hq : Abreast r begun eats f q q') :
    Abreast r begun eats f (kind >>= fun k => if k = wanted then p else q)
      (kind >>= fun k => if k = wanted then p' else q') := by
  intro construct c c' hc
  have hkind := kind_iff hw hc
  show Agree r _ begun eats f ((if c.kind = wanted then p else q) construct c)
    ((if c'.kind = wanted then p' else q') construct c')
  by_cases hk : c.kind = wanted
  · rw [if_pos hk, if_pos (hkind.1 hk)]
    exact hp hk hc
  · rw [if_neg hk, if_neg (mt hkind.2 hk)]
    exact hq hc

/-- A plain token is taken on both sides or on neither. -/
theorem accept_abreast : Abreast r begun false id (accept wanted) (accept wanted) := by
  intro construct c c' hc
  have hkind := kind_iff hw hc
  unfold accept
  by_cases hk : c.kind = wanted
  · rw [if_pos hk, if_pos (hkind.1 hk)]
    exact .ok rfl hc.advance
  · rw [if_neg hk, if_neg (mt hkind.2 hk)]
    exact .ok rfl hc

/-- A plain token is taken on both sides, or the same error is raised on both. -/
theorem expect_abreast (hne : wanted ≠ .eof) :
    Abreast r begun true r.token (expect wanted) (expect wanted) := by
  intro construct c c' hc
  have hkind := kind_iff hw hc
  unfold expect
  by_cases hk : c.kind = wanted
  · rw [if_pos hk, if_pos (hkind.1 hk)]
    exact .ok hc.token_eq.symm (hc.advance_begun (hk ▸ hne))
  · rw [if_neg hk, if_neg (mt hkind.2 hk)]
    exact fail_abreast (fun _ => rfl) hc

end

/-- The opener goes into the error, so the closer is compared at an opener retold. -/
theorem close_abreast (bracket : Bracket) (opener : Token) :
    Abreast r begun true id (close bracket opener) (close bracket (r.token opener)) := by
  intro construct c c' hc
  have hplain : Retelling.IsPlain bracket.closer := by cases bracket <;> decide
  have hne : bracket.closer ≠ .eof := by cases bracket <;> decide
  have hkind := kind_iff hplain hc
  unfold close
  by_cases hk : c.kind = bracket.closer
  · rw [if_pos hk, if_pos (hkind.1 hk)]
    exact .ok rfl (hc.advance_begun (hk ▸ hne))
  · rw [if_neg hk, if_neg (mt hkind.2 hk)]
    exact fail_abreast (fun _ => rfl) hc

/-- A name keeps its text and gets its span from the token retold. -/
theorem ident_abreast : Abreast r begun true (Ident.relabel r.toRelabeling) ident ident := by
  intro construct c c' hc
  have hname (text : String) : c.kind = .name text ↔ c'.kind = .name text := by
    have hplain : Retelling.IsPlain (.name text) := ⟨nofun, nofun, nofun, nofun⟩
    exact kind_iff hplain hc
  unfold ident
  split
  · next text hk =>
    rw [(hname text).1 hk]
    refine .ok ?_ (hc.advance_begun (hk ▸ nofun))
    rw [Ident.relabel, hc.token_eq, r.token_span]
  · next hk =>
    split
    · next text hk' => exact absurd ((hname text).2 hk') (hk text)
    · exact fail_abreast (fun _ => rfl) hc

/-! ### Lists

  Separators are plain, so both lists end at the same place. -/

section

variable {separator : Token.Kind} {item item' : Parser α}

/-- Neither side stops before the other, because they share separators and budget. -/
theorem moreAfter_abreast (hs : Retelling.IsPlain separator) (hi : Abreast r begun true f item item')
    (budget : Nat) : Abreast r begun false (List.map f) (moreAfter separator item budget)
      (moreAfter separator item' budget) := by
  induction budget with
  | zero => exact .pure rfl
  | succ budget ih =>
    refine .bind (accept_abreast hs) fun taken => .ite Iff.rfl ?_ (.pure rfl)
    exact .bind hi.weaken fun a => .bind ih fun more => .pure rfl

/-- The first item eats, so that the list does even if no separator follows. -/
theorem sepBy_abreast (hs : Retelling.IsPlain separator)
    (hi : ∀ begun, Abreast r begun true f item item') :
    Abreast r begun true (Prod.map f (List.map f)) (sepBy separator item) (sepBy separator item') := by
  refine (hi begun).and_then fun first => .bind remaining_abreast fun budget => ?_
  exact .bind (moreAfter_abreast hs (hi true) _) fun more => .pure_begun rfl

end

end Parser

end Modula

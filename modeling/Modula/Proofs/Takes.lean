import Modula.Node
import Modula.Proofs.Reading
/-!
# Tokens that are taken

  A parser takes some tokens off the front of what is to be read, and the spans in what it makes of them
  are put together from theirs.

  * `Covers ts s` — the span `s` reaches from the beginning of the first of these tokens to the end of
    the last one.  Some spans are joined, and the join of two spans reaches from the first to the second
    one only if they are in order, so covering is claimed for tokens in the order of the source
    (`Ordered`).
  * `c.Takes ts d` — the tokens `ts` are read between the cursors `c` and `d`.
  * `p.Lays P` — what the parser `p` takes and what it makes of it are related by `P`.
-/

namespace Modula

/-! ## Tokens and spans

  A span covers tokens if it begins with the first one and ends with the last one. -/

/-- Tokens as they stand in a source: none of them begins before the one in front of it has ended. -/
structure Ordered (ts : List Token) : Prop where
  start_le_stop : ∀ t ∈ ts, t.span.start ≤ t.span.stop
  follow : ts.Pairwise fun a b => a.span.stop ≤ b.span.start

/-- Where the first token begins. -/
def startOf? (ts : List Token) : Option Nat := ts.head?.map fun t => t.span.start

/-- Where the last token ends. -/
def stopOf? (ts : List Token) : Option Nat := ts.getLast?.map fun t => t.span.stop

/-- From the beginning of the first token to the end of the last one. -/
def Covers (ts : List Token) (s : Span) : Prop :=
  Ordered ts → startOf? ts = some s.start ∧ stopOf? ts = some s.stop

section

variable {ts u v m : List Token} {a b s : Span} {n : Nat}

/-- Order is told of pairs of tokens, so it passes to every part of a row. -/
theorem Ordered.of_sublist (h : Ordered ts) (hu : u.Sublist ts) : Ordered u where
  start_le_stop t ht := h.start_le_stop t (hu.subset ht)
  follow := h.follow.sublist hu

theorem Ordered.left (h : Ordered (u ++ v)) : Ordered u := h.of_sublist (List.sublist_append_left u v)

theorem Ordered.right (h : Ordered (u ++ v)) : Ordered v := h.of_sublist (List.sublist_append_right u v)

/-- The beginning is that of the first part. -/
theorem startOf?_append (h : startOf? u = some n) : startOf? (u ++ v) = some n := by
  obtain ⟨t, ht, rfl⟩ := Option.map_eq_some_iff.1 h
  rw [startOf?, List.head?_append, ht]
  rfl

/-- The end is that of the last part. -/
theorem stopOf?_append (h : stopOf? v = some n) : stopOf? (u ++ v) = some n := by
  obtain ⟨t, ht, rfl⟩ := Option.map_eq_some_iff.1 h
  rw [stopOf?, List.getLast?_append, ht]
  rfl

/-- Tokens that are there end somewhere. -/
theorem exists_stopOf? (h : ts ≠ []) : ∃ n, stopOf? ts = some n := by
  rw [stopOf?, List.getLast?_eq_some_getLast h]
  exact ⟨_, rfl⟩

namespace Covers

/-- A single token. -/
theorem of_token (t : Token) : Covers [t] t.span := fun _ => ⟨rfl, rfl⟩

/-- From the first part to the second one. -/
theorem across (hu : Covers u a) (hv : Covers v b) : Covers (u ++ (m ++ v)) ⟨a.start, b.stop⟩ := by
  intro ho
  exact ⟨startOf?_append (hu ho.left).1, stopOf?_append (stopOf?_append (hv ho.right.right).2)⟩

/-- A span that covers tokens starts with one of them. -/
theorem exists_start (h : Covers ts s) (ho : Ordered ts) : ∃ t ∈ ts, t.span.start = s.start := by
  obtain ⟨t, ht, hs⟩ := Option.map_eq_some_iff.1 (h ho).1
  exact ⟨t, List.mem_of_head? ht, hs⟩

/-- And it ends with one. -/
theorem exists_stop (h : Covers ts s) (ho : Ordered ts) : ∃ t ∈ ts, t.span.stop = s.stop := by
  obtain ⟨t, ht, hs⟩ := Option.map_eq_some_iff.1 (h ho).2
  exact ⟨t, List.mem_of_getLast? ht, hs⟩

/-- All of the tokens lie within the span. -/
theorem start_le (h : Covers ts s) (ho : Ordered ts) : ∀ t ∈ ts, s.start ≤ t.span.start := by
  obtain ⟨first, hfirst, hs⟩ := Option.map_eq_some_iff.1 (h ho).1
  obtain ⟨more, rfl⟩ := List.head?_eq_some_iff.1 hfirst
  intro t ht
  rcases List.mem_cons.1 ht with rfl | ht
  · exact Nat.le_of_eq hs.symm
  · have hle := ho.start_le_stop first List.mem_cons_self
    have hnext := (List.pairwise_cons.1 ho.follow).1 t ht
    omega

/-- All of the tokens end within the span. -/
theorem le_stop (h : Covers ts s) (ho : Ordered ts) : ∀ t ∈ ts, t.span.stop ≤ s.stop := by
  obtain ⟨last, hlast, hs⟩ := Option.map_eq_some_iff.1 (h ho).2
  obtain ⟨front, rfl⟩ := List.getLast?_eq_some_iff.1 hlast
  intro t ht
  rcases List.mem_append.1 ht with ht | ht
  · have hle := ho.start_le_stop last List.mem_concat_self
    have hnext := (List.pairwise_append.1 ho.follow).2.2 t ht last (List.mem_singleton_self last)
    omega
  · rw [List.mem_singleton.1 ht]
    exact Nat.le_of_eq hs

/-- A span that covers tokens is not the wrong way round. -/
theorem start_le_stop (h : Covers ts s) (ho : Ordered ts) : s.start ≤ s.stop := by
  obtain ⟨t, ht, hs⟩ := h.exists_start ho
  have hle := ho.start_le_stop t ht
  have hstop := h.le_stop ho t ht
  omega

/-- Spans in order are joined from the first to the second one. -/
theorem join (hu : Covers u a) (hv : Covers v b) : Covers (u ++ (m ++ v)) (a.join b) := by
  intro ho
  have hall : Covers (u ++ (m ++ v)) ⟨a.start, b.stop⟩ := hu.across hv
  obtain ⟨t, ht, hstart⟩ := hv.exists_start ho.right.right
  obtain ⟨t', ht', hstop⟩ := hu.exists_stop ho.left
  have hleft := hall.start_le ho t (List.mem_append_right u (List.mem_append_right m ht))
  have hright := hall.le_stop ho t' (List.mem_append_left (m ++ v) ht')
  have hjoin : a.join b = ⟨a.start, b.stop⟩ := by
    rw [Span.join, Span.mk.injEq]
    exact ⟨Nat.min_eq_left (hstart ▸ hleft), Nat.max_eq_right (hstop ▸ hright)⟩
  rw [hjoin]
  exact hall ho

end Covers

end

/-! ## Movements of a cursor

  The end of the last token that was read is kept at the cursor.  It is where a phrase ends. -/

/-- From `c` over these tokens to `d`. -/
def Cursor.Takes (c : Cursor) (ts : List Token) (d : Cursor) : Prop :=
  c.rest = ts ++ d.rest ∧ d.lastEnd = (stopOf? ts).getD c.lastEnd

namespace Cursor

variable {c d e : Cursor} {ts u v : List Token}

/-- Nothing is taken in place. -/
theorem Takes.refl (c : Cursor) : c.Takes [] c := ⟨rfl, rfl⟩

/-- What is taken behind is taken as well. -/
theorem Takes.trans (hu : c.Takes u d) (hv : d.Takes v e) : c.Takes (u ++ v) e := by
  refine ⟨by rw [hu.1, hv.1, List.append_assoc], ?_⟩
  rw [hv.2, hu.2, stopOf?, stopOf?, stopOf?, List.getLast?_append]
  cases v.getLast? <;> rfl

/-- Ids do not matter. -/
theorem Takes.withId (h : c.Takes ts d) (id : Nat) : c.Takes ts { d with nextId := id } := h

/-- The token at a cursor is of the kind that is seen there, but for the end of the source. -/
theorem kind_token (h : c.kind ≠ .eof) : c.token.kind = c.kind := by
  unfold kind at h ⊢
  unfold token
  cases hr : c.rest with
  | nil => rw [hr] at h; exact absurd rfl h
  | cons t ts => rfl

/-- One token is taken by a step. -/
theorem takes_advance (h : c.kind ≠ .eof) : c.Takes [c.token] c.advance := by
  unfold kind at h
  unfold advance token
  cases hr : c.rest with
  | nil => rw [hr] at h; exact absurd rfl h
  | cons t ts => exact ⟨hr, rfl⟩

/-- The first of the tokens taken stood at the cursor. -/
theorem Takes.token_eq {t : Token} (h : c.Takes (t :: ts) d) : c.token = t := by
  rw [token, h.1]
  rfl

/-- What was read ends before the token at the cursor begins. -/
theorem Takes.lastEnd_le (hu : c.Takes u d) (hv : d.Takes v e) (hneu : u ≠ []) (hnev : v ≠ [])
    (ho : Ordered (u ++ v)) : d.lastEnd ≤ d.token.span.start := by
  obtain ⟨t, more, rfl⟩ := List.exists_cons_of_ne_nil hnev
  obtain ⟨-, -, hfollow⟩ := List.pairwise_append.1 ho.follow
  rw [hu.2, stopOf?, List.getLast?_eq_some_getLast hneu, hv.token_eq]
  exact hfollow _ (List.getLast_mem hneu) t List.mem_cons_self

/-- A phrase begins with the token at the cursor, and ends where the last token does. -/
theorem Takes.covers (h : c.Takes ts d) (hne : ts ≠ []) :
    Covers ts ⟨c.token.span.start, d.lastEnd⟩ := by
  intro _
  obtain ⟨n, hn⟩ := exists_stopOf? hne
  obtain ⟨t, more, rfl⟩ := List.exists_cons_of_ne_nil hne
  refine ⟨?_, ?_⟩
  · rw [token, h.1]
    rfl
  · rw [h.2, hn]
    rfl

end Cursor

/-! ## Lists -/

/-- Tokens of items, with a token in between. -/
inductive Joined {α : Type} (P : List Token → α → Prop) : List Token → List α → Prop
  | one {ts : List Token} {a : α} : P ts a → Joined P ts [a]
  | more {u v : List Token} {t : Token} {a : α} {l : List α} :
    P u a → Joined P v l → Joined P (u ++ t :: v) (a :: l)

namespace Joined

variable {α : Type} {P Q : List Token → α → Prop} {ts u v : List Token} {l : List α}

/-- What is said of each item may be weakened. -/
theorem mono (h : Joined P ts l) (hPQ : ∀ ts a, P ts a → Q ts a) : Joined Q ts l := by
  induction h with
  | one ha => exact .one (hPQ _ _ ha)
  | more ha _ ih => exact .more (hPQ _ _ ha) ih

/-- A list of items that take tokens takes some. -/
theorem ne_nil (h : Joined P ts l) (hP : ∀ a, ¬ P [] a) : ts ≠ [] := by
  cases h with
  | one ha =>
    rintro rfl
    exact hP _ ha
  | more _ _ => exact List.append_ne_nil_of_right_ne_nil _ (List.cons_ne_nil _ _)

/-- The spans of the items are joined from the first one on. -/
theorem covers {span : α → Span} {a : α} (h : Joined (fun ts a => Covers ts (span a)) ts (a :: l)) :
    Covers ts (l.foldl (fun s b => s.join (span b)) (span a)) := by
  have further : ∀ {v : List Token} {l : List α}, Joined (fun ts a => Covers ts (span a)) v l →
      ∀ {u : List Token} {s : Span} (t : Token), Covers u s →
        Covers (u ++ t :: v) (l.foldl (fun s b => s.join (span b)) s) := by
    intro v l hl
    induction hl with
    | one hb => exact fun t hu => hu.join (m := [t]) hb
    | @more v w t' b l hb _ ih =>
      intro u s t hu
      have hfirst : Covers (u ++ t :: v) (s.join (span b)) := hu.join (m := [t]) hb
      have hall := ih t' hfirst
      rwa [List.append_assoc, List.cons_append] at hall
  cases h with
  | one ha => exact ha
  | more ha hl => exact further hl _ ha

end Joined

/-! ## Parsers

  A parser lays what it makes on the tokens that it takes.  The relation between the two is a parameter,
  so that values that are no nodes have one as well. -/

namespace Parser

variable {α β : Type} {P Q : List Token → α → Prop}

/-- What the parser takes and what it makes of it are related. -/
def Lays (p : Parser α) (P : List Token → α → Prop) : Prop :=
  ∀ ⦃construct c a c'⦄, p construct c = .ok a c' → ∃ ts, c.Takes ts c' ∧ P ts a

theorem Lays.mono {p : Parser α} (h : p.Lays P) (hPQ : ∀ ts a, P ts a → Q ts a) : p.Lays Q := by
  intro construct c a c' hrun
  obtain ⟨ts, hts, ha⟩ := h hrun
  exact ⟨ts, hts, hPQ ts a ha⟩

/-- An expected token is taken, and is of its kind. -/
theorem expect_takes {k : Token.Kind} (hk : k ≠ .eof) :
    (expect k).Lays fun ts t => ts = [t] ∧ t.kind = k := by
  intro construct c t c' h
  unfold expect at h
  split at h
  · next hc =>
    cases h
    have hne : c.kind ≠ .eof := hc ▸ hk
    exact ⟨_, Cursor.takes_advance hne, rfl, (Cursor.kind_token hne).trans hc⟩
  · exact absurd h fail_ne_ok

/-- The kind is mostly not of interest. -/
theorem expect_lays {k : Token.Kind} (hk : k ≠ .eof) : (expect k).Lays fun ts t => ts = [t] :=
  (expect_takes hk).mono fun _ _ h => h.1

theorem close_lays (bracket : Bracket) (opener : Token) :
    (close bracket opener).Lays fun ts _ => ∃ t, ts = [t] := by
  intro construct c _ c' h
  obtain ⟨hc, rfl⟩ := close_eq_ok h
  refine ⟨_, Cursor.takes_advance ?_, _, rfl⟩
  rw [hc]
  cases bracket <;> nofun

/-- One token or none, as the value tells. -/
theorem accept_lays {k : Token.Kind} (hk : k ≠ .eof) :
    (accept k).Lays fun ts taken => if taken then ∃ t, ts = [t] else ts = [] := by
  intro construct c taken c' h
  rcases accept_eq_ok h with ⟨rfl, hc, rfl⟩ | ⟨rfl, -, rfl⟩
  · exact ⟨_, Cursor.takes_advance (hc ▸ hk), _, rfl⟩
  · exact ⟨[], .refl c', rfl⟩

/-- A name takes one token, and its span. -/
theorem ident_takes :
    ident.Lays fun ts i => ∃ t, ts = [t] ∧ t.kind = .name i.name ∧ t.span = i.span := by
  intro construct c i c' h
  unfold ident at h
  split at h
  · next text hk =>
    cases h
    have hne : c.kind ≠ .eof := hk ▸ nofun
    exact ⟨_, Cursor.takes_advance hne, _, rfl, (Cursor.kind_token hne).trans hk, rfl⟩
  · exact absurd h fail_ne_ok

/-! ### Lists -/

/-- The first item in front of the further ones, each of which has a separator. -/
theorem joined_of_further {u v : List Token} {a : α} {l : List α} (ha : P u a)
    (hl : (v = [] ∧ l = []) ∨ ∃ t w, v = t :: w ∧ Joined P w l) : Joined P (u ++ v) (a :: l) := by
  rcases hl with ⟨rfl, rfl⟩ | ⟨t, w, rfl, hl⟩
  · rw [List.append_nil]
    exact .one ha
  · exact .more ha hl

/-- By induction on the budget: nothing, or a separator and a list of items. -/
theorem moreAfter_lays {separator : Token.Kind} {item : Parser α} (hs : separator ≠ .eof)
    (hi : item.Lays P) (budget : Nat) : (moreAfter separator item budget).Lays fun ts l =>
      (ts = [] ∧ l = []) ∨ ∃ t v, ts = t :: v ∧ Joined P v l := by
  induction budget with
  | zero =>
    intro construct c l c' h
    cases h
    exact ⟨[], .refl c, Or.inl ⟨rfl, rfl⟩⟩
  | succ budget ih =>
    intro construct c l c' h
    obtain ⟨taken, c₁, h₁, h₂⟩ := bind_eq_ok.1 h
    obtain ⟨ts, hts, htaken⟩ := accept_lays hs h₁
    cases taken with
    | false =>
      cases h₂
      exact ⟨ts, hts, Or.inl ⟨htaken, rfl⟩⟩
    | true =>
      obtain ⟨t, rfl⟩ := htaken
      obtain ⟨a, c₂, h₃, h₄⟩ := bind_eq_ok.1 h₂
      obtain ⟨more, c₃, h₅, h₆⟩ := bind_eq_ok.1 h₄
      cases h₆
      obtain ⟨u, hu, ha⟩ := hi h₃
      obtain ⟨v, hv, hmore⟩ := ih h₅
      refine ⟨t :: (u ++ v), hts.trans (hu.trans hv), Or.inr ⟨t, u ++ v, rfl, ?_⟩⟩
      exact joined_of_further ha hmore

/-- The items of a list, with one token between each two of them. -/
theorem sepBy_lays {separator : Token.Kind} {item : Parser α} (hs : separator ≠ .eof)
    (hi : item.Lays P) : (sepBy separator item).Lays fun ts l => Joined P ts (l.1 :: l.2) := by
  intro construct c l c' h
  obtain ⟨a, c₁, h₁, h₂⟩ := bind_eq_ok.1 h
  obtain ⟨budget, _, hb, h₃⟩ := bind_eq_ok.1 h₂
  cases hb
  obtain ⟨more, c₂, h₄, h₅⟩ := bind_eq_ok.1 h₃
  cases h₅
  obtain ⟨u, hu, ha⟩ := hi h₁
  obtain ⟨v, hv, hmore⟩ := moreAfter_lays hs hi _ h₄
  exact ⟨u ++ v, hu.trans hv, joined_of_further ha hmore⟩

end Parser

end Modula

import Mathlib.Logic.Function.Iterate
import Modula.Proofs.Recovery.Skip
/-!
# Repetitions that come to an end

  Readers repeat themselves on a budget, and with no budget left they stop.  So it is a matter of course
  that they end, but not that the budget has nothing to do with it: a loop that never moved would end
  only because its budget does.  This module tells what it means that a repetition ends by itself.

  A repetition is told by one turn of it.  That is a function of what is done next, be it another round
  of a loop or a reader of what is nested inside.  If turns are stacked, `turn^[n] bottom`, then what
  stands at the bottom is done after `n` turns.  The repetition ends by itself if the bottom can be
  anything at all once there are enough turns, and the budgeted reader gives what the turns give
  (`Settles`).

  This is so whenever a turn takes a token before it goes on.  One turn for every token, and one more,
  are enough then (`Settles.of_turn`).  That a turn does so is told by comparing it with itself, over
  readers that agree only where there is less to be read (`AgreeBelow`).
-/

namespace Modula

/-- Wherever there are fewer than `n` tokens to be read, `n` turns settle what is done: what stands
below them does not matter, and a budget of so many tokens is not short.  It depends on the repetition
what agreement is. -/
def Settles {P : Type} (agree : Nat → P → P → Prop) (turn : P → P) (loop : Nat → P) : Prop :=
  ∀ bottom n budget, n ≤ budget + 1 → agree n (loop budget) (turn^[n] bottom)

/-- A repetition settles if a turn at the end of the source is the last one, and if two turns agree
where there is one more token to be read than where they are continued alike. -/
theorem Settles.of_turn {P : Type} {agree : Nat → P → P → Prop} {turn : P → P} {loop : Nat → P}
    (hsucc : ∀ n, loop (n + 1) = turn (loop n)) (hzero : ∀ p q, agree 0 p q)
    (hend : ∀ q, agree 1 (loop 0) (turn q))
    (hturn : ∀ n budget q, agree n (loop budget) q → agree (n + 1) (turn (loop budget)) (turn q)) :
    Settles agree turn loop := by
  intro bottom n
  induction n with
  | zero => exact fun budget _ => hzero _ _
  | succ n ih =>
    intro budget hn
    rw [Function.iterate_succ_apply']
    cases budget with
    | zero =>
      obtain rfl : n = 0 := by omega
      exact hend _
    | succ budget =>
      rw [hsucc]
      exact hturn n budget _ (ih budget (by omega))

/-- More turns than are needed do not matter. -/
theorem Settles.of_lt {P : Type} {agree : Nat → P → P → Prop} {turn : P → P} {loop : Nat → P}
    (h : Settles agree turn loop) (bottom : P) {n budget : Nat} (hn : budget < n) :
    agree (budget + 1) (loop budget) (turn^[n] bottom) := by
  obtain ⟨more, rfl⟩ := Nat.exists_eq_add_of_le hn
  rw [Function.iterate_add_apply]
  exact h _ _ _ le_rfl

namespace Cursor

variable {c : Cursor}

/-- A step leaves fewer tokens. -/
theorem remaining_advance_lt (hc : c.kind ≠ .eof) : c.advance.remaining < c.remaining :=
  remaining_lt_of_advance_le hc le_rfl

/-- Nothing is left at the end of the source only. -/
theorem kind_eq_eof (hc : c.remaining < 1) : c.kind = .eof := by
  have hnil : c.rest = [] := List.length_eq_zero_iff.1 (Nat.lt_one_iff.1 hc)
  rw [kind, hnil]

end Cursor

namespace Parser

variable {α β : Type} {n : Nat}

/-- The parsers do the same wherever there are fewer than `n` tokens to be read. -/
def AgreeBelow (n : Nat) (p q : Parser α) : Prop :=
  ∀ construct c, c.remaining < n → p construct c = q construct c

/-! ## Movements

  Each turn takes a token.  That a parser goes forward, whatever it is given, is what is needed of it
  here. -/

/-- The parser, begun here, does not go back, whether it ends with a value or with an error. -/
def ForwardFrom (p : Parser α) (construct : Construct) (c : Cursor) : Prop :=
  match p construct c with
  | .ok _ c' => c ≤ c'
  | .error _ c' => c ≤ c'

/-- Wherever the parser is begun, it does not go back. -/
def Forward (p : Parser α) : Prop := ∀ construct c, p.ForwardFrom construct c

section

variable {L : Language Token.Kind} {p : Parser α} {construct : Construct} {c c' : Cursor} {a : α}

/-- A value comes at the cursor or behind it. -/
theorem Forward.le (hp : p.Forward) (h : p construct c = .ok a c') : c ≤ c' := by
  have hc := hp construct c
  rwa [ForwardFrom, h] at hc

/-- What a parser takes are tokens that have not been read. -/
theorem TracksFrom.forwardFrom (hp : p.TracksFrom L construct c) : p.ForwardFrom construct c := by
  unfold ForwardFrom
  cases h : p construct c with
  | ok a c' =>
    obtain ⟨w, -, hreach⟩ := hp.reaches h
    exact hreach.le
  | error e c' => exact (hp.fails h).le

/-- Every parser that tracks a language moves forward. -/
theorem Tracks.forward (hp : p.Tracks L) : p.Forward := fun construct c => (hp construct c).forwardFrom

theorem advance_forward : advance.Forward := fun _ c => c.le_advance

/-- A token that is not taken does no harm. -/
theorem accept_forward (k : Token.Kind) : (accept k).Forward := by
  intro construct c
  unfold ForwardFrom
  by_cases hk : c.kind = k
  · rw [accept_of_kind hk]
    exact c.le_advance
  · rw [accept_of_kind_ne hk]

theorem expect_forward (k : Token.Kind) : (expect k).Forward := by
  intro construct c
  unfold ForwardFrom
  by_cases hk : c.kind = k
  · rw [expect_of_kind hk]
    exact c.le_advance
  · rw [expect, if_neg hk]
    exact le_rfl

/-- Tokens have been taken if there are tokens in every word. -/
theorem TracksFrom.remaining_lt (hp : p.TracksFrom L construct c) (hL : [] ∉ L)
    (h : p construct c = .ok a c') : c'.remaining < c.remaining := by
  obtain ⟨w, hw, -, ts, hrest, rfl⟩ := hp.reaches h
  have hpos : 0 < ts.length := List.length_pos_iff.2 fun hnil => hL (by rwa [hnil] at hw)
  have hlen := congrArg List.length hrest
  rw [List.length_append] at hlen
  rw [Cursor.remaining, Cursor.remaining]
  omega

/-- A word of one token is not empty. -/
theorem nil_not_mem_oneToken (k : Token.Kind) : [] ∉ oneToken k := by
  intro h
  cases h

/-- Two sequences with one beginning are compared where it has ended. -/
theorem bind_congr {f g : α → Parser β}
    (h : ∀ a c', p construct c = .ok a c' → f a construct c' = g a construct c') :
    (p >>= f) construct c = (p >>= g) construct c := by
  rw [bind_apply, bind_apply]
  cases hp : p construct c with
  | ok a c' => exact h a c' hp
  | error e c' => rfl

end

/-! ## Agreement of sequences

  Two parsers that differ only in how deep they are unrolled are compared at cursors with few tokens left.
  A token that is taken in front leaves less, and so the parts behind it may differ at one level more. -/

namespace AgreeBelow

variable {p q : Parser α} {f g : α → Parser β}

/-- There is no cursor with fewer tokens than none. -/
theorem zero (p q : Parser α) : AgreeBelow 0 p q := fun _ _ hc => absurd hc (Nat.not_lt_zero _)

theorem refl (p : Parser α) : AgreeBelow n p p := fun _ _ _ => rfl

/-- If what comes first agrees, what comes behind it may be anything. -/
theorem bind_same (hp : AgreeBelow n p q) (f : α → Parser β) : AgreeBelow n (p >>= f) (q >>= f) := by
  intro construct c hc
  rw [bind_apply, bind_apply, hp construct c hc]

/-- The first part of a sequence does not go back, so the second one is begun where there is no more to
be read. -/
theorem bind (hp : AgreeBelow n p q) (hforward : p.Forward) (hf : ∀ a, AgreeBelow n (f a) (g a)) :
    AgreeBelow n (p >>= f) (q >>= g) := by
  intro construct c hc
  rw [← hp.bind_same g construct c hc]
  refine bind_congr fun a c' h => hf a construct c' ?_
  exact Nat.lt_of_le_of_lt (Cursor.remaining_le_of_le (hforward.le h)) hc

/-- If what comes first moves forward, what comes behind it need only agree on what is left. -/
theorem then_bind (hforward : p.Forward) (hf : ∀ a, AgreeBelow n (f a) (g a)) :
    AgreeBelow n (p >>= f) (p >>= g) := (refl p).bind hforward hf

/-- If the first part takes a token, the second one is begun where there is less to be read. -/
theorem after {L : Language Token.Kind} (ht : p.Tracks L) (hL : [] ∉ L)
    (hf : ∀ a, AgreeBelow n (f a) (g a)) : AgreeBelow (n + 1) (p >>= f) (p >>= g) := by
  intro construct c hc
  refine bind_congr fun a c' h => hf a construct c' ?_
  exact Nat.lt_of_lt_of_le ((ht construct c).remaining_lt hL h) (Nat.le_of_lt_succ hc)

theorem within (phrase : Construct) (h : AgreeBelow n p q) :
    AgreeBelow n (within phrase p) (within phrase q) := fun _ c hc => h phrase c hc

theorem kind_bind {f g : Token.Kind → Parser β} (h : ∀ k, AgreeBelow n (f k) (g k)) :
    AgreeBelow n (kind >>= f) (kind >>= g) := fun construct c hc => h c.kind construct c hc

theorem get_bind {f g : Cursor → Parser β} (h : ∀ c, AgreeBelow n (f c) (g c)) :
    AgreeBelow n (get >>= f) (get >>= g) := fun construct c hc => h c construct c hc

/-- A budget is drawn on both sides alike. -/
theorem remaining_bind {f g : Nat → Parser β} (h : ∀ r, AgreeBelow n (f r) (g r)) :
    AgreeBelow n (remaining >>= f) (remaining >>= g) :=
  fun construct c hc => h c.remaining construct c hc

/-- This is where a level is gained: behind a token there is one token less. -/
theorem advance_bind {f g : Token → Parser β} (h : ∀ t, AgreeBelow n (f t) (g t)) :
    AgreeBelow n (advance >>= f) (advance >>= g) := fun construct c hc =>
  h c.token construct c.advance (Nat.lt_of_le_of_lt (Cursor.remaining_le_of_le c.le_advance) hc)

/-- Whether the token was taken or not, no more is left. -/
theorem accept_bind {k : Token.Kind} {f g : Bool → Parser β} (h : ∀ b, AgreeBelow n (f b) (g b)) :
    AgreeBelow n (accept k >>= f) (accept k >>= g) := by
  intro construct c hc
  by_cases hk : c.kind = k
  · rw [bind_of_ok (accept_of_kind hk), bind_of_ok (accept_of_kind hk)]
    exact h true construct _ (Nat.lt_of_le_of_lt (Cursor.remaining_le_of_le c.le_advance) hc)
  · rw [bind_of_ok (accept_of_kind_ne hk), bind_of_ok (accept_of_kind_ne hk)]
    exact h false construct c hc

/-- What is done without the token does not go on. -/
theorem after_accept {k : Token.Kind} {f g : Bool → Parser β} (hk : k ≠ .eof)
    (ht : AgreeBelow n (f true) (g true)) (hf : f false = g false) :
    AgreeBelow (n + 1) (accept k >>= f) (accept k >>= g) := by
  intro construct c hc
  by_cases hck : c.kind = k
  · rw [bind_of_ok (accept_of_kind hck), bind_of_ok (accept_of_kind hck)]
    have hlt : c.advance.remaining < c.remaining :=
      Cursor.remaining_advance_lt (hck ▸ hk)
    exact ht construct _ (Nat.lt_of_lt_of_le hlt (Nat.le_of_lt_succ hc))
  · rw [bind_of_ok (accept_of_kind_ne hck), bind_of_ok (accept_of_kind_ne hck), hf]

end AgreeBelow

/-! ### At a certain cursor

  In a turn of a loop the token is known. -/

/-- At a given cursor the look at it makes no difference. -/
theorem get_bind_eq {f g : Cursor → Parser β} {construct : Construct} {c : Cursor}
    (h : f c construct c = g c construct c) : (get >>= f) construct c = (get >>= g) construct c := h

/-- At a given cursor only the branch for its kind counts. -/
theorem kind_bind_eq {f g : Token.Kind → Parser β} {construct : Construct} {c : Cursor}
    (h : ∀ k, c.kind = k → f k construct c = g k construct c) :
    (kind >>= f) construct c = (kind >>= g) construct c := h c.kind rfl

/-- A token that is not the end of the source is taken. -/
theorem advance_bind_eq {f g : Token → Parser β} {construct : Construct} {c : Cursor}
    (hc : c.kind ≠ .eof) (hn : c.remaining < n + 1) (h : ∀ t, AgreeBelow n (f t) (g t)) :
    (advance >>= f) construct c = (advance >>= g) construct c :=
  h c.token construct c.advance
    (Nat.lt_of_lt_of_le (Cursor.remaining_advance_lt hc) (Nat.le_of_lt_succ hn))

/-! ## Lists -/

section

variable {separator : Token.Kind} {item item' : Parser α}

/-- One further item, and more of them. -/
def moreAfterTurn (separator : Token.Kind) (item : Parser α) (more : Parser (List α)) :
    Parser (List α) := do
  if ← accept separator then
    let a ← item
    let more ← more
    return a :: more
  else return []

/-- A list with separators settles if its items do not go back. -/
theorem moreAfter_settles (hs : separator ≠ .eof) (hi : item.Forward) :
    Settles AgreeBelow (moreAfterTurn separator item) (moreAfter separator item) := by
  refine .of_turn (fun n => rfl) AgreeBelow.zero (fun q construct c hc => ?_) fun n budget q h => ?_
  · have hne : c.kind ≠ separator := fun hk => hs (hk.symm.trans (Cursor.kind_eq_eof hc))
    rw [moreAfterTurn, bind_of_ok (accept_of_kind_ne hne)]
    rfl
  · exact .after_accept hs (.then_bind hi fun a => h.bind_same _) rfl

/-- By induction on the budget, which is the same on both sides. -/
theorem moreAfter_agree (hi : item.Forward) (h : AgreeBelow n item item') (budget : Nat) :
    AgreeBelow n (moreAfter separator item budget) (moreAfter separator item' budget) := by
  induction budget with
  | zero => exact .refl _
  | succ budget ih =>
    refine .accept_bind fun taken => ?_
    cases taken with
    | false => exact .refl _
    | true => exact h.bind hi fun a => ih.bind_same _

/-- Lists agree where their items do. -/
theorem sepBy_agree (hi : item.Forward) (h : AgreeBelow n item item') :
    AgreeBelow n (sepBy separator item) (sepBy separator item') :=
  h.bind hi fun _ => .remaining_bind fun r => (moreAfter_agree hi h r).bind_same _

end

end Parser

end Modula

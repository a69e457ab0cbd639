import Mathlib.Tactic.Common
import Modula.Recovery.Unit
import Modula.Proofs.Reading.Unit
import Modula.Proofs.Recovery.Skip
/-!
# The course of a reading

  A reader that goes on after errors is described from two sides.

  * **Where it comes.**  The errors that it notes, the places where it goes on after them, and the error
    that it may end with stand one behind the other: reading never goes back over an error, and each
    note is made behind the note before it (`Trail`, `Follows`).
  * **What its options change.**  Nothing but the point where it gives up.  With a smaller limit the
    reading is the same one up to the note that makes up the limit, and then it ends with the error of
    that note (`Cut`).

  Both are told by one predicate, `Orderly f c p s`, about the reader `p` in the session `s`, where `c`
  is the place that reading had come to when the phrase that `p` belongs to was begun: that is the
  cursor of `s` or lies before it.  The function `f` tells what becomes of the error of a note when it is
  the one that reading ends with; that is the error itself, as long as nobody looks at errors again
  (`inside` does).  `Steady f p` says that `p` is orderly in every session.
-/

namespace Modula

/-! ## Limits

  The options tell how many errors end a reading, and without recovery it is the first one. -/

/-- How many errors end a reading. -/
def Options.limit (options : Options) : Nat := if options.recover then max 1 options.maxErrors else 1

/-- The first error may always be told. -/
theorem Options.limit_pos (options : Options) : 0 < options.limit := by
  unfold limit
  split <;> omega

/-- To reach the limit is to stop at the first error, or to have noted as many as are allowed. -/
theorem Options.limit_le_iff (options : Options) (n : Nat) :
    options.limit ≤ n + 1 ↔ options.recover = false ∨ options.maxErrors ≤ n + 1 := by
  unfold limit
  cases options.recover <;> simp

/-! ## Trails

  A trail is what a reading leaves behind: the notes it has made, in the order of the tokens.  An error in
  a trail stands behind the place where reading went on after the error before. -/

/-- From one cursor to another with these notes on the way.  Every error stands at or behind the place
where reading had come, reading goes on at or behind the error, and some tokens are left behind. -/
inductive Trail : Cursor → List Recovery → Cursor → Prop
  | done {c d : Cursor} : c ≤ d → Trail c [] d
  | noted {c d d' e : Cursor} {r : Recovery} {log : List Recovery} : c ≤ d → r.error.StandsAt d →
    d ≤ d' → r.resumption = d'.remaining → d'.remaining < c.remaining → Trail d' log e →
      Trail c (r :: log) e

namespace Trail

variable {c d e : Cursor} {log log' : List Recovery}

/-- A trail may begin earlier. -/
theorem of_le (hcd : c ≤ d) (h : Trail d log e) : Trail c log e := by
  cases h with
  | done hde => exact .done (hcd.trans hde)
  | noted hd he hres hr hlt h =>
    exact .noted (hcd.trans hd) he hres hr
      (lt_of_lt_of_le hlt (Cursor.remaining_le_of_le hcd)) h

/-- Two trails, one behind the other. -/
theorem append (h : Trail c log d) (h' : Trail d log' e) : Trail c (log ++ log') e := by
  induction h with
  | done hcd => exact h'.of_le hcd
  | noted hd he hres hr hlt _ ih => exact .noted hd he hres hr hlt (ih h')

/-- A trail leads forward. -/
theorem le (h : Trail c log d) : c ≤ d := by
  induction h with
  | done hcd => exact hcd
  | noted hd _ hres _ _ _ ih => exact hd.trans (hres.trans ih)

/-- Notes are made on the way only. -/
theorem remaining_le (h : Trail c log d) : ∀ r ∈ log, d.remaining ≤ r.error.remaining := by
  induction h with
  | done _ => exact fun r hr => absurd hr List.not_mem_nil
  | noted hd he hres hr hlt htail ih =>
    refine List.forall_mem_cons.2 ⟨?_, ih⟩
    rw [he.2]
    exact Cursor.remaining_le_of_le (hres.trans htail.le)

/-- There are no more notes than tokens. -/
theorem length_le (h : Trail c log d) : log.length + d.remaining ≤ c.remaining := by
  induction h with
  | done hcd => simpa using Cursor.remaining_le_of_le hcd
  | noted _ _ _ _ hlt _ ih =>
    rw [List.length_cons]
    omega

end Trail

namespace Recovering

variable {α β : Type}

/-! ## Notes

  A note either ends the reading, or reading goes on with it in the log.  The limit alone decides. -/

section

variable {options : Options} {s : Session}

/-- A note that makes up the limit ends the reading with its error. -/
theorem note_of_limit_le (h : options.limit ≤ s.log.length + 1) (e : SyntaxError)
    (resumption : Cursor) : note e resumption options s = .error e s :=
  if_pos ((Options.limit_le_iff _ _).1 h)

/-- And any other note leads on to where reading is to go on. -/
theorem note_of_lt_limit (h : s.log.length + 1 < options.limit) (e : SyntaxError)
    (resumption : Cursor) : note e resumption options s =
      .ok () ⟨{ resumption with nextId := s.cursor.nextId }, s.log ++ [⟨e, resumption.remaining⟩]⟩ :=
  if_neg (mt (Options.limit_le_iff _ _).2 (Nat.not_le.2 h))

end

/-! ## Logs

  What a reading adds to the log is a trail, from where it began to where it ended. -/

/-- The log at the end of a reading. -/
def logOf : EStateM.Result SyntaxError Session α → List Recovery
  | .ok _ s => s.log
  | .error _ s => s.log

/-- The reading came to `c` with this log, and went on from there. -/
def Follows (c : Cursor) (log : List Recovery) : EStateM.Result SyntaxError Session α → Prop
  | .ok _ s => ∃ new, s.log = log ++ new ∧ Trail c new s.cursor
  | .error e s => ∃ new d, s.log = log ++ new ∧ Trail c new d ∧ e.StandsAt d ∧ d ≤ s.cursor

/-- The log is only added to. -/
theorem Follows.grows {c : Cursor} {log : List Recovery}
    {r : EStateM.Result SyntaxError Session α} (h : Follows c log r) : log <+: logOf r := by
  cases r with
  | ok a s =>
    obtain ⟨new, hlog, -⟩ := h
    exact ⟨new, hlog.symm⟩
  | error e s =>
    obtain ⟨new, d, hlog, -⟩ := h
    exact ⟨new, hlog.symm⟩

/-! ## Cuts

  Two readings with different limits are the same one up to the smaller limit.  The note that makes up
  this limit is an error there, and whatever the other reading does behind it is cut off. -/

/-- The error may be the last one, with the cursor left at `c`.  Either there are tokens left, or it is
about statements and stands at the cursor. -/
def MayEnd (e : SyntaxError) (c : Cursor) : Prop :=
  (c.atEnd = false ∧ 0 < e.remaining) ∨ e = outerError c (.notSupported .statementSequences)

/-- What a reading ends with under a smaller limit, given what it ends with under a larger one. -/
def Cut (f : SyntaxError → SyntaxError) (limit : Nat) (r r' : EStateM.Result SyntaxError Session α) :
    Prop :=
  ((logOf r').length < limit → r = r') ∧
    (limit ≤ (logOf r').length → ∃ n c, (logOf r')[limit - 1]? = some n ∧ MayEnd n.error c ∧
      r = .error (f n.error) ⟨c, (logOf r').take (limit - 1)⟩)

/-- Where nothing is noted there is nothing to be cut. -/
theorem Cut.refl {f : SyntaxError → SyntaxError} {limit : Nat}
    {r : EStateM.Result SyntaxError Session α} (h : (logOf r).length < limit) : Cut f limit r r :=
  ⟨fun _ => rfl, fun hle => absurd h (Nat.not_lt.2 hle)⟩

/-! ## Orderly readers

  Trails and cuts are put together alike, so they are told in one notion. -/

/-- Reading goes forward only, its limit only cuts it, and it ends with errors in their final form. -/
structure Orderly (f : SyntaxError → SyntaxError) (c : Cursor) (p : Recovering α) (s : Session) :
    Prop where
  follows : ∀ options, Follows c s.log (p options s)
  cut : ∀ options options' : Options, s.log.length < options.limit →
    options.limit ≤ options'.limit → Cut f options.limit (p options s) (p options' s)
  final : ∀ options e s', p options s = .error e s' → f e = e

/-- A reader that is orderly wherever it is run. -/
def Steady (f : SyntaxError → SyntaxError) (p : Recovering α) : Prop :=
  ∀ s : Session, Orderly f s.cursor p s

namespace Orderly

variable {f : SyntaxError → SyntaxError} {c d : Cursor} {p q : Recovering α} {s : Session}

/-- The phrase may have begun earlier. -/
theorem of_le (hcd : c ≤ d) (h : Orderly f d p s) : Orderly f c p s := by
  refine ⟨fun options => ?_, h.cut, h.final⟩
  have hf := h.follows options
  cases hr : p options s with
  | ok a s' =>
    rw [hr] at hf
    obtain ⟨new, hlog, ht⟩ := hf
    exact ⟨new, hlog, ht.of_le hcd⟩
  | error e s' =>
    rw [hr] at hf
    obtain ⟨new, d', hlog, ht, he⟩ := hf
    exact ⟨new, d', hlog, ht.of_le hcd, he⟩

/-- Only the runs matter. -/
theorem congr {s' : Session} (heq : ∀ options, p options s = q options s') (hlog : s'.log = s.log)
    (h : Orderly f c q s') : Orderly f c p s := by
  refine ⟨fun options => ?_, fun options options' hs hle => ?_, fun options e t he => ?_⟩
  · rw [heq, ← hlog]
    exact h.follows options
  · rw [heq, heq]
    exact h.cut options options' (hlog ▸ hs) hle
  · exact h.final options e t (heq options ▸ he)

/-- A reader that ends with a value, whatever the options, and notes nothing. -/
theorem of_ok {a : α} {c' : Cursor} (h : ∀ options, p options s = .ok a ⟨c', s.log⟩) (hc : c ≤ c') :
    Orderly f c p s := by
  refine ⟨fun options => ?_, fun options options' hs _ => ?_, fun options e t he => ?_⟩
  · rw [h]
    exact ⟨[], (List.append_nil _).symm, .done hc⟩
  · rw [h, h]
    exact .refl hs
  · rw [h] at he
    cases he

/-- A reader that ends with an error, whatever the options: the error stands where it was found, in front
of where the reader has come to. -/
theorem of_error {e : SyntaxError} {c' : Cursor}
    (h : ∀ options, p options s = .error e ⟨c', s.log⟩) (hc : c ≤ d) (he : e.StandsAt d)
    (hd : d ≤ c') (hf : f e = e) : Orderly f c p s := by
  refine ⟨fun options => ?_, fun options options' hs _ => ?_, fun options e t he => ?_⟩
  · rw [h]
    exact ⟨[], d, (List.append_nil _).symm, .done hc, he, hd⟩
  · rw [h, h]
    exact .refl hs
  · rw [h] at he
    cases he
    exact hf

/-! ### Steps

  A parser makes no notes.  Its error ends the reading, and where it stands is told by what the parser has
  taken. -/

/-- To return a value is orderly wherever reading has come to. -/
theorem pure (a : α) (hc : c ≤ s.cursor) : Orderly f c (Pure.pure a) s := of_ok (fun _ => rfl) hc

/-- A look at the cursor changes nothing. -/
theorem cursor_bind {g : Cursor → Recovering β} (h : Orderly f c (g s.cursor) s) :
    Orderly f c (cursor >>= g) s := .congr (q := g s.cursor) (fun _ => rfl) rfl h

/-- A parser may fail, or the rest goes on from where it ended. -/
theorem run_bind {L : Language Token.Kind} {construct : Construct} {p : Parser α}
    {g : α → Recovering β} (hc : c ≤ s.cursor) (hp : p.TracksFrom L construct s.cursor)
    (hf : ∀ e, e.IsOfGrammar → f e = e)
    (hg : ∀ a c', p construct s.cursor = .ok a c' → s.cursor ≤ c' → Orderly f c (g a) ⟨c', s.log⟩) :
    Orderly f c (run construct p >>= g) s := by
  cases h : p construct s.cursor with
  | ok a c' =>
    obtain ⟨w, -, hw⟩ := hp.reaches h
    refine (hg a c' h hw.le).congr (fun options => ?_) ?_
    · exact bind_of_ok (run_of_ok h options s.log)
    · rfl
  | error e c' =>
    -- What the parser has taken in front of its error leads up to where the error stands.
    obtain ⟨u, d, x, hu, -, he, hx, -, hgrammar⟩ := hp.fails h
    refine .of_error (fun options => ?_) (hc.trans hu.le) he hx.le (hf e hgrammar)
    rw [bind_apply, run, h]

/-- A parser that tracks is orderly, because its errors stand behind what it has taken. -/
theorem run {L : Language Token.Kind} {construct : Construct} {p : Parser α} (hc : c ≤ s.cursor)
    (hp : p.TracksFrom L construct s.cursor) (hf : ∀ e, e.IsOfGrammar → f e = e) :
    Orderly f c (Recovering.run construct p) s := by
  have h := run_bind (g := Pure.pure) hc hp hf fun a c' _ hle => .pure a (hc.trans hle)
  refine h.congr (fun options => ?_) rfl
  rw [bind_apply]
  cases Recovering.run construct p options s <;> rfl

/-- A note is what makes up the limit, or reading goes on behind it. -/
theorem note {e : SyntaxError} {resumption : Cursor} (hc : c ≤ d) (he : e.StandsAt d)
    (hd : d ≤ s.cursor) (hres : d ≤ resumption) (hlt : resumption.remaining < c.remaining)
    (hend : MayEnd e s.cursor) : Orderly id c (Recovering.note e resumption) s := by
  refine ⟨fun options => ?_, fun options options' hs hle => ?_, fun _ _ _ _ => rfl⟩
  -- Under the limit the error is noted, or reading ends with it.
  · rcases Nat.lt_or_ge (s.log.length + 1) options.limit with h | h
    · rw [note_of_lt_limit h]
      exact ⟨_, rfl, .noted hc he hres rfl hlt (.done (Cursor.le_withId _ _))⟩
    · rw [note_of_limit_le h]
      exact ⟨[], d, (List.append_nil _).symm, .done hc, he, hd⟩
  · rcases Nat.lt_or_ge (s.log.length + 1) options'.limit with h' | h'
    · rw [note_of_lt_limit h']
      rcases Nat.lt_or_ge (s.log.length + 1) options.limit with h | h
      · rw [note_of_lt_limit h]
        refine .refl ?_
        simp only [logOf, List.length_append, List.length_singleton]
        omega
      · rw [note_of_limit_le h]
        -- Here the smaller limit is hit by this very note, and the larger one is not.
        have hlimit : options.limit - 1 = s.log.length := by omega
        refine ⟨fun hlt => ?_, fun _ => ⟨⟨e, resumption.remaining⟩, s.cursor, ?_, hend, ?_⟩⟩
        · simp only [logOf, List.length_append, List.length_singleton] at hlt
          omega
        · rw [hlimit]
          exact List.getElem?_concat_length
        · rw [hlimit]
          simp only [logOf, List.take_left, id]
    · rw [note_of_limit_le h', note_of_limit_le (hle.trans h')]
      exact .refl hs

/-! ### Sequences

  The second reader is run only if the first one ends with a value, so it may be cut while the first one
  is not. -/

/-- The trail of the second reader begins where that of the first one ends. -/
theorem bind_follows {g : α → Recovering β} {options : Options}
    (hp : Follows c s.log (p options s))
    (hg : ∀ a s', Follows s'.cursor s'.log (g a options s')) :
    Follows c s.log ((p >>= g) options s) := by
  cases h : p options s with
  | ok a s₁ =>
    rw [h] at hp
    obtain ⟨new, hlog, ht⟩ := hp
    have hg₁ := hg a s₁
    rw [bind_of_ok h]
    cases h₁ : g a options s₁ with
    | ok b s₂ =>
      rw [h₁] at hg₁
      -- The notes of the second part are made behind those of the first.
      obtain ⟨new₁, hlog₁, ht₁⟩ := hg₁
      exact ⟨new ++ new₁, by rw [hlog₁, hlog, List.append_assoc], ht.append ht₁⟩
    | error e s₂ =>
      rw [h₁] at hg₁
      obtain ⟨new₁, d, hlog₁, ht₁, he⟩ := hg₁
      exact ⟨new ++ new₁, d, by rw [hlog₁, hlog, List.append_assoc], ht.append ht₁, he⟩
  | error e s₁ =>
    rw [h] at hp
    rw [bind_apply, h]
    exact hp

/-- The notes of the first part are the first ones of the sequence. -/
theorem logOf_bind {g : α → Recovering β} {options : Options}
    (hg : ∀ a s', Follows s'.cursor s'.log (g a options s')) :
    logOf (p options s) <+: logOf ((p >>= g) options s) := by
  cases h : p options s with
  | ok a s₁ =>
    rw [bind_of_ok h]
    exact (hg a s₁).grows
  | error e s₁ =>
    rw [bind_apply, h]
    exact List.prefix_refl _

/-- If the limit is reached in the first reader, the second one is not run; else it is run with the same
notes in front. -/
theorem bind_cut {g : α → Recovering β} {options options' : Options}
    (hp : Cut f options.limit (p options s) (p options' s)) (hg : ∀ a, Steady f (g a))
    (hle : options.limit ≤ options'.limit) :
    Cut f options.limit ((p >>= g) options s) ((p >>= g) options' s) := by
  rcases Nat.lt_or_ge (logOf (p options' s)).length options.limit with hlt | hge
  · -- the first part is the same under both limits
    have heq := hp.1 hlt
    cases h : p options' s with
    | ok a s₁ =>
      rw [h] at heq hlt
      rw [bind_of_ok heq, bind_of_ok h]
      exact (hg a s₁).cut options options' hlt hle
    | error e s₁ =>
      rw [h] at heq hlt
      rw [bind_apply, bind_apply, heq, h]
      exact .refl hlt
  · -- it is cut, and so is the sequence, at the same note
    obtain ⟨n, c', hn, hend, heq⟩ := hp.2 hge
    obtain ⟨new, hnew⟩ := logOf_bind (p := p) (s := s) fun a s' => (hg a s').follows options'
    have hlt : options.limit - 1 < (logOf (p options' s)).length := by
      have hpos := options.limit_pos
      omega
    refine ⟨fun hshort => ?_, fun _ => ⟨n, c', ?_, hend, ?_⟩⟩
    · rw [← hnew, List.length_append] at hshort
      omega
    · rw [← hnew, List.getElem?_append_left hlt]
      exact hn
    · rw [bind_apply, heq, ← hnew, List.take_append_of_le_length hlt.le]

/-- A sequence is orderly if its parts are. -/
theorem bind {g : α → Recovering β} (hp : Orderly f c p s) (hg : ∀ a, Steady f (g a)) :
    Orderly f c (p >>= g) s := by
  refine ⟨fun options => ?_, fun options options' hs hle => ?_, fun options e s' he => ?_⟩
  · exact bind_follows (hp.follows options) fun a s' => (hg a s').follows options
  · exact bind_cut (hp.cut options options' hs hle) hg hle
  · cases h : p options s with
    | ok a s₁ =>
      rw [bind_of_ok h] at he
      exact (hg a s₁).final options e s' he
    | error e₁ s₁ =>
      rw [bind_apply, h] at he
      cases he
      exact hp.final options e s' h

end Orderly

/-- What is steady is orderly here, also for a phrase that began earlier. -/
theorem Steady.orderly {f : SyntaxError → SyntaxError} {c : Cursor} {p : Recovering α} {s : Session}
    (h : Steady f p) (hc : c ≤ s.cursor) : Orderly f c p s := (h s).of_le hc

/-- Steady readers in sequence. -/
theorem Steady.bind {f : SyntaxError → SyntaxError} {p : Recovering α} {g : α → Recovering β}
    (hp : Steady f p) (hg : ∀ a, Steady f (g a)) : Steady f (p >>= g) := fun s => (hp s).bind hg

theorem Steady.pure {f : SyntaxError → SyntaxError} (a : α) : Steady f (Pure.pure a) :=
  fun _ => .pure a le_rfl

end Recovering

end Modula

import Mathlib.Data.List.TakeWhile
import Modula.Lexeme.Number
/-!
# Longest runs

  The lexer cuts a source where a class of characters ends.  A text `rest` stops a class when it does
  not begin with a character of the class; then the longest run of the class at the front of
  `u ++ rest` is `u`, as soon as all of `u` is in the class (`takeWhile_of_stops`).  Every text is cut
  like that in one way (`exists_run`), and what is said about runs below is said about such cuts.
-/

namespace Modula

/-- The text does not begin with a character of the class. -/
def Stops (p : Char → Bool) (rest : Text) : Prop := ∀ c, rest.head? = some c → p c = false

/-- What stops a run does so by its first character. -/
theorem stops_cons {p : Char → Bool} {c : Char} {cs : Text} : Stops p (c :: cs) ↔ p c = false := by
  constructor
  · intro h
    exact h c rfl
  · intro h d hd
    rw [← Option.some.inj hd]
    exact h

/-- What stops a class stops every class inside it. -/
theorem Stops.mono {p q : Char → Bool} {rest : Text} (h : Stops q rest)
    (hpq : ∀ c, p c = true → q c = true) : Stops p rest := by
  intro c hc
  have hq : q c = false := h c hc
  cases hp : p c with
  | false => rfl
  | true => rw [hpq c hp] at hq; exact hq

/-- What is put in front of a text decides whether it stops a class, unless it is empty. -/
theorem Stops.append {p : Char → Bool} {e rest : Text} (he : Stops p e) (hr : Stops p rest) :
    Stops p (e ++ rest) := by
  cases e with
  | nil => exact hr
  | cons c e => exact stops_cons.2 (stops_cons.1 he)

/-- A run that was stopped has not taken everything. -/
theorem not_all_of_stops {p : Char → Bool} {u e : Text} (he : Stops p e) (hne : e ≠ []) :
    ¬ (u ++ e).all p = true := by
  intro hall
  cases e with
  | nil => exact hne rfl
  | cons c e =>
    have hc : p c = true := List.all_eq_true.1 hall c (by simp)
    rw [stops_cons.1 he] at hc
    cases hc

/-- A run takes just what is in front of what stops it. -/
theorem takeWhile_of_stops {p : Char → Bool} {u rest : Text} (hu : u.all p = true)
    (hr : Stops p rest) : (u ++ rest).takeWhile p = u := by
  have hstop : rest.takeWhile p = [] := by
    cases rest with
    | nil => rfl
    | cons c cs => rw [List.takeWhile_cons, stops_cons.1 hr]; rfl
  rw [List.takeWhile_append_of_pos fun c hc => List.all_eq_true.1 hu c hc, hstop, List.append_nil]

theorem dropWhile_of_stops {p : Char → Bool} {u rest : Text} (hu : u.all p = true)
    (hr : Stops p rest) : (u ++ rest).dropWhile p = rest := by
  have hstop : rest.dropWhile p = rest := by
    cases rest with
    | nil => rfl
    | cons c cs => rw [List.dropWhile_cons, stops_cons.1 hr]; rfl
  rw [List.dropWhile_append_of_pos fun c hc => List.all_eq_true.1 hu c hc, hstop]

/-- And this is how long it is. -/
theorem run_of_stops {p : Char → Bool} {u rest : Text} (hu : u.all p = true) (hr : Stops p rest) :
    Number.run p (u ++ rest) = u.length := by
  rw [Number.run, takeWhile_of_stops hu hr]

/-- Every text is a run of the class with a text behind it that stops the class. -/
theorem exists_run (p : Char → Bool) (cs : Text) :
    ∃ u rest, cs = u ++ rest ∧ u.all p = true ∧ Stops p rest := by
  refine ⟨cs.takeWhile p, cs.dropWhile p, List.takeWhile_append_dropWhile.symm, ?_, ?_⟩
  · exact List.all_eq_true.2 fun c hc => List.mem_takeWhile_imp hc
  · intro c hc
    have hne : cs.dropWhile p ≠ [] := by
      intro hnil
      rw [hnil] at hc
      cases hc
    have hhead := List.head_dropWhile_not p hne
    rw [List.head?_eq_some_head hne] at hc
    rwa [Option.some.inj hc] at hhead

end Modula

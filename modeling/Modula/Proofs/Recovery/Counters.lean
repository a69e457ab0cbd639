import Mathlib.Tactic.SplitIfs
import Modula.Recovery.Skip
/-!
# The counters of skips

  A skip counts the brackets that it is inside of.  The lengths of skips are told with natural numbers,
  where nothing is below zero: one less than zero is zero.  So it remains to be seen that a counter which
  can go below zero gives the same lengths, and never does.

  Such a counter is an integer.  A closing parenthesis, bracket or brace takes one off it down to zero
  and no further; an `END` just takes one off, and may do so because a skip that is outside of all
  brackets ends there.

  What a skip does at one token is a `Move`, and `run` makes the moves one after the other and keeps the
  numbers that the counter goes through.  A skip `Counts` if each move from a natural number leads to
  one, and the length of the skip is that of what is done after the move and the token itself.
-/

namespace Modula

open Token.Kind (word symbol)

namespace Skip

/-! ## Moves -/

/-- What a skip does at a token. -/
inductive Move where
  /-- It ends, and so many of the tokens from this one on belong to it. -/
  | stop (taken : Nat)
  /-- It goes on behind the token, with the counter at this number. -/
  | go (depth : Int)

/-- An opening token counts up.  A closing one counts down, but not below zero. -/
def bracketMove (opens closes : Token.Kind → Bool) (depth : Int) (k : Token.Kind) (other : Move) :
    Move :=
  if opens k then .go (depth + 1) else if closes k then .go (max (depth - 1) 0) else other

/-- At an `END` a skip ends if it is outside of all brackets, and counts down else. -/
def endMove (depth : Int) : Move := if depth = 0 then .stop 0 else .go (depth - 1)

/-- What the skip of a broken declaration does. -/
def declarationMove (depth : Int) (t : Token) (_ : List Token) : Move :=
  bracketMove Token.Kind.isOpener Token.Kind.isBracketCloser depth t.kind <|
    if t.kind = word .END then endMove depth
    else if t.kind = symbol .semicolon ∧ depth = 0 then .stop 1
    else if t.kind.endsDeclaration = true ∧ depth = 0 then .stop 0
    else .go depth

/-- What the skip of variable declarations does. -/
def variablesMove (depth : Int) (t : Token) (next : List Token) : Move :=
  bracketMove Token.Kind.isOpener Token.Kind.isBracketCloser depth t.kind <|
    if t.kind = word .END then endMove depth
    else if t.kind.endsVariables then .stop 0
    else if t.kind = word .PROCEDURE ∧ nextIsName next = true then .stop 0
    else .go depth

/-- What the skip of a procedure heading does. -/
def headingMove (depth : Int) (t : Token) (_ : List Token) : Move :=
  bracketMove (· == symbol .openParen) (· == symbol .closeParen) depth t.kind <|
    if t.kind = symbol .semicolon ∧ depth = 0 then .stop 1 else .go depth

/-- How many tokens are skipped by moves of this kind, and the numbers that the counter goes through. -/
def run (move : Int → Token → List Token → Move) (depth : Int) : List Token → Nat × List Int
  | [] => (0, [depth])
  | t :: ts =>
    match move depth t ts with
    | .stop taken => (taken, [depth])
    | .go next =>
      let (taken, depths) := run move next ts
      (taken + 1, depth :: depths)

/-! ## Runs -/

/-- A move from a natural number ends a skip of this length, or leads to a natural number with a skip
that is one token shorter. -/
def Moves (length : Nat → List Token → Nat) (ts : List Token) (skipped : Nat) : Move → Prop
  | .stop taken => skipped = taken
  | .go next => ∃ n : Nat, next = n ∧ skipped = length n ts + 1

/-- Each move goes as far as the skip of this length does. -/
structure Counts (move : Int → Token → List Token → Move) (length : Nat → List Token → Nat) :
    Prop where
  nil : ∀ depth, length depth [] = 0
  cons : ∀ depth t ts, Moves length ts (length depth (t :: ts)) (move depth t ts)

/-- Moves of which each one counts go through natural numbers only. -/
theorem Counts.run {move : Int → Token → List Token → Move} {length : Nat → List Token → Nat}
    (h : Counts move length) (depth : Nat) (ts : List Token) :
    (run move depth ts).1 = length depth ts ∧ ∀ d ∈ (run move depth ts).2, 0 ≤ d := by
  induction ts generalizing depth with
  | nil => exact ⟨(h.nil depth).symm, by simp [Skip.run]⟩
  | cons t ts ih =>
    have hmove := h.cons depth t ts
    rw [Skip.run]
    cases hnext : move depth t ts with
    | stop taken =>
      rw [hnext] at hmove
      exact ⟨hmove.symm, by simp⟩
    | go next =>
      rw [hnext] at hmove
      obtain ⟨n, rfl, hlength⟩ := hmove
      obtain ⟨htaken, hdepths⟩ := ih n
      exact ⟨(congrArg (· + 1) htaken).trans hlength.symm,
        List.forall_mem_cons.2 ⟨Int.natCast_nonneg depth, hdepths⟩⟩

/-! ## The skips count -/

section

variable {length : Nat → List Token → Nat} {ts : List Token} {depth skipped : Nat} {other : Move}
  {opens closes : Token.Kind → Bool} {k : Token.Kind}

theorem moves_bracketMove
    (hopen : opens k = true → skipped = length (depth + 1) ts + 1)
    (hclose : opens k = false → closes k = true → skipped = length (depth - 1) ts + 1)
    (hother : opens k = false → closes k = false → Moves length ts skipped other) :
    Moves length ts skipped (bracketMove opens closes depth k other) := by
  unfold bracketMove
  split_ifs with ho hc
  · exact ⟨depth + 1, by omega, hopen ho⟩
  · exact ⟨depth - 1, by omega, hclose (Bool.not_eq_true _ ▸ ho) hc⟩
  · exact hother (Bool.not_eq_true _ ▸ ho) (Bool.not_eq_true _ ▸ hc)

theorem moves_endMove (hzero : depth = 0 → skipped = 0)
    (hsucc : ∀ outer, depth = outer + 1 → skipped = length outer ts + 1) :
    Moves length ts skipped (endMove depth) := by
  cases depth with
  | zero => exact hzero rfl
  | succ outer =>
    rw [endMove, if_neg (by omega)]
    exact ⟨outer, by omega, hsucc outer rfl⟩

end

theorem declaration_counts : Counts declarationMove declarationRest where
  nil _ := rfl
  cons depth t ts := by
    refine moves_bracketMove (fun ho => ?_) (fun ho hc => ?_) fun ho hc => ?_
    · cases depth <;> rw [declarationRest, if_pos ho]
    · cases depth <;> rw [declarationRest, ho, if_neg Bool.false_ne_true, if_pos hc]
    · by_cases hend : t.kind = word .END
      · rw [if_pos hend]
        refine moves_endMove (fun hzero => ?_) fun outer hsucc => ?_
        · rw [hzero, declarationRest, hend]
          rfl
        · rw [hsucc, declarationRest, hend]
          rfl
      · rw [if_neg hend]
        cases depth with
        | zero =>
          rw [declarationRest, ho, hc, if_neg Bool.false_ne_true, if_neg Bool.false_ne_true]
          simp only [hend, if_false, Int.natCast_zero, and_true]
          split_ifs
          · rfl
          · rfl
          · exact ⟨0, rfl, rfl⟩
        | succ outer =>
          have hne : ((outer + 1 : Nat) : Int) ≠ 0 := by omega
          rw [declarationRest, ho, hc, if_neg Bool.false_ne_true, if_neg Bool.false_ne_true]
          simp only [hend, hne, and_false, if_false]
          exact ⟨outer + 1, rfl, rfl⟩

theorem variables_counts : Counts variablesMove variablesRest where
  nil _ := rfl
  cons depth t ts := by
    refine moves_bracketMove (fun ho => ?_) (fun ho hc => ?_) fun ho hc => ?_
    · cases depth <;> rw [variablesRest, if_pos ho]
    · cases depth <;> rw [variablesRest, ho, if_neg Bool.false_ne_true, if_pos hc]
    · by_cases hend : t.kind = word .END
      · rw [if_pos hend]
        -- an END is none of the tokens that are asked for before it
        refine moves_endMove (fun hzero => ?_) fun outer hsucc => ?_
        · rw [hzero, variablesRest, hend]
          rfl
        · rw [hsucc, variablesRest, hend]
          rfl
      · rw [if_neg hend]
        have hlength : variablesRest depth (t :: ts) =
            if t.kind.endsVariables then 0
            else if t.kind = word .PROCEDURE ∧ nextIsName ts = true then 0
            else variablesRest depth ts + 1 := by
          cases depth <;> rw [variablesRest, ho, hc] <;> simp only [hend] <;> rfl
        rw [hlength]
        split_ifs
        · rfl
        · rfl
        · exact ⟨depth, rfl, rfl⟩

theorem heading_counts : Counts headingMove headingRest where
  nil _ := rfl
  cons depth t ts := by
    refine moves_bracketMove (fun ho => ?_) (fun ho hc => ?_) fun ho hc => ?_
    · rw [headingRest, if_pos (beq_iff_eq.1 ho)]
    · rw [headingRest, if_neg (beq_eq_false_iff_ne.1 ho), if_pos (beq_iff_eq.1 hc)]
    · rw [headingRest, if_neg (beq_eq_false_iff_ne.1 ho), if_neg (beq_eq_false_iff_ne.1 hc)]
      simp only [Int.natCast_eq_zero]
      split_ifs
      · rfl
      · exact ⟨depth, rfl, rfl⟩

end Skip

end Modula

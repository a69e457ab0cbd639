import Modula.Proofs.Lexeme.Read
/-!
# Line feeds end lexemes

  No scan sees past the end of its line, except that of a comment.  What is read at the front of a text
  is therefore the same when the text is the whole source and when a line feed and more text follow it
  (`read_line`), as long as it is not a comment that the text does not close.

  Every scan looks at the text through longest runs of a class of characters and at the character behind
  them.  A line feed is in none of these classes, and it is none of the characters that are asked for.
-/

namespace Modula

/-- A run of characters does not go over the end of a line. -/
theorem takeWhile_line {p : Char → Bool} (hp : p '\n' = false) (cs b : Text) :
    (cs ++ '\n' :: b).takeWhile p = cs.takeWhile p := by
  obtain ⟨u, rest, rfl, hu, hr⟩ := exists_run p cs
  rw [List.append_assoc, takeWhile_of_stops hu (hr.append (stops_cons.2 hp)), takeWhile_of_stops hu hr]

/-- What is dropped within a line leaves the end of it. -/
theorem drop_line {n : Nat} {cs : Text} (h : n ≤ cs.length) (b : Text) :
    (cs ++ '\n' :: b).drop n = cs.drop n ++ '\n' :: b := List.drop_append_of_le_length h

/-! ## Numbers -/

namespace Number

/-- The length of a run is told by the line alone. -/
theorem run_line {p : Char → Bool} (hp : p '\n' = false) (cs b : Text) :
    run p (cs ++ '\n' :: b) = run p cs := by
  rw [run, takeWhile_line hp, run]

/-- Whether a number is closed is told by the character behind it. -/
theorem closed_line {cs : Text} {n : Nat} (h : n ≤ cs.length) (shape : Shape) (b : Text) :
    closed (cs ++ '\n' :: b) n shape = closed cs n shape := by
  rw [closed, drop_line h, run_line rfl, closed]

/-- One case for each character that may come first in an exponent. -/
theorem exponentLength_line (cs b : Text) : exponentLength (cs ++ '\n' :: b) = exponentLength cs := by
  cases cs with
  | nil => rfl
  | cons c cs =>
    -- The exponent is told by two characters at most and a run of digits, and a line feed is none of
    -- them.
    by_cases hc : c = 'E'
    · subst hc
      cases cs with
      | nil => rfl
      | cons d cs =>
        by_cases hplus : d = '+'
        · subst hplus
          exact congrArg exponentLength.signed (run_line rfl cs b)
        · by_cases hminus : d = '-'
          · subst hminus
            exact congrArg exponentLength.signed (run_line rfl cs b)
          · have hunsigned : ∀ tail : Text, exponentLength ('E' :: d :: tail) =
                exponentLength.unsigned (run isDigit (d :: tail)) := by
              intro tail
              rw [exponentLength]
              · exact fun _ heq => hplus (List.cons.inj heq).1
              · exact fun _ heq => hminus (List.cons.inj heq).1
            rw [List.cons_append, List.cons_append, hunsigned, hunsigned, ← List.cons_append,
              run_line rfl]
    · have hnone : ∀ tail : Text, exponentLength (c :: tail) = 0 := by
        intro tail
        rw [exponentLength]
        · exact fun _ heq => hc (List.cons.inj heq).1
        · exact fun _ heq => hc (List.cons.inj heq).1
        · exact fun _ heq => hc (List.cons.inj heq).1
      rw [List.cons_append, hnone, hnone]

/-- Two periods are a token of their own, and they stand in one line. -/
theorem startsFraction_line (cs b : Text) : startsFraction (cs ++ '\n' :: b) = startsFraction cs := by
  cases cs with
  | nil => rfl
  | cons c cs =>
    -- A fraction is told by two characters; if there is just one, the line feed is no point.
    by_cases hc : c = '.'
    · subst hc
      cases cs with
      | nil => rfl
      | cons d cs =>
        by_cases hd : d = '.'
        · subst hd
          rfl
        · have hpoint : ∀ tail : Text, startsFraction ('.' :: d :: tail) = true := by
            intro tail
            rw [startsFraction]
            exact fun _ heq => hd (List.cons.inj heq).1
          rw [List.cons_append, List.cons_append, hpoint, hpoint]
    · have hnone : ∀ tail : Text, startsFraction (c :: tail) = false := by
        intro tail
        rw [startsFraction]
        · exact fun _ heq => hc (List.cons.inj heq).1
        · exact fun _ heq => hc (List.cons.inj heq).1
      rw [List.cons_append, hnone, hnone]

/-- A number ends on its line. -/
theorem read_line {c : Char} (hc : isDigit c = true) (cs b : Text) :
    read (c :: cs ++ '\n' :: b) = read (c :: cs) := by
  obtain ⟨u, r, hcut, hu, hr⟩ := exists_run isAlphanumeric (c :: cs)
  have hfirst : ∀ y, u.head? = some y → isDigit y = true := by
    intro y hy
    obtain ⟨v, rfl⟩ := List.head?_eq_some_iff.1 hy
    rwa [← (List.cons.inj hcut).1]
  rw [hcut, List.append_assoc]
  by_cases hp : u.all isDigit = true → startsFraction r = false
  · have hp' : u.all isDigit = true → startsFraction (r ++ '\n' :: b) = false := by
      rwa [startsFraction_line]
    rw [read_of_run hfirst hu hr hp, read_of_run hfirst hu (hr.append (stops_cons.2 rfl)) hp']
  · -- the digits are followed by a point that belongs to them
    obtain ⟨hdigits, hpoint⟩ := Classical.not_imp.1 hp
    obtain ⟨fraction, rfl, hrange⟩ := eq_of_startsFraction (Bool.not_eq_false _ ▸ hpoint)
    obtain ⟨f, tail, rfl, hf, htail⟩ := exists_run isDigit fraction
    -- Behind the point there is no second one, with or without the line feed.
    have hrange' : ∀ more, f ++ (tail ++ '\n' :: b) ≠ '.' :: more := by
      intro more heq
      rw [← List.append_assoc] at heq
      cases hrest : f ++ tail with
      | nil =>
        rw [hrest] at heq
        cases heq
      | cons d ds =>
        rw [hrest, List.cons_append] at heq
        exact hrange ds ((List.cons.inj heq).1 ▸ hrest)
    have hend : u.length + 1 + f.length + exponentLength tail ≤
        (u ++ '.' :: (f ++ tail)).length := by
      have hle := exponentLength_le_length tail
      simp only [List.length_append, List.length_cons]
      omega
    have hline : u ++ '.' :: (f ++ (tail ++ '\n' :: b)) = u ++ '.' :: (f ++ tail) ++ '\n' :: b := by
      simp
    rw [List.cons_append, List.append_assoc, read_of_fraction hdigits hf htail hrange,
      read_of_fraction hdigits hf (htail.append (stops_cons.2 rfl)) hrange', exponentLength_line, hline,
      closed_line hend]

end Number

/-! ## Lexemes -/

namespace Lexeme

variable {c : Char} (cs b : Text)

/-- A number ends with its line at the latest. -/
theorem number_line (hc : Number.isDigit c = true) :
    number c (cs ++ '\n' :: b) = number c cs := by
  obtain ⟨-, hend, -⟩ := Number.read_reach cs hc
  have hread := Number.read_line hc cs b
  unfold number
  rw [← List.cons_append, hread]
  generalize Number.read (c :: cs) = found at hend ⊢
  obtain ⟨shape, length⟩ := found
  dsimp only
  rw [List.take_append_of_le_length hend]

theorem word_line : word c (cs ++ '\n' :: b) = word c cs := by
  unfold word
  rw [takeWhile_line rfl]

/-- A string that is not closed in its line is not closed at all. -/
theorem string_line (hc : isQuote c = true) : string c (cs ++ '\n' :: b) = string c cs := by
  have hquote : '\n' ≠ c := by
    rintro rfl
    cases hc
  have hlen := (List.takeWhile_sublist (l := cs) fun d => d != c && d != '\n').length_le
  unfold string
  rw [takeWhile_line (by simp)]
  generalize cs.takeWhile (fun d => d != c && d != '\n') = content at hlen ⊢
  dsimp only
  rw [drop_line hlen]
  cases cs.drop content.length with
  | nil =>
    -- A string that is open at the end of its line is open there as well.
    have hopen : ([] ++ '\n' :: b).head? ≠ some c := fun h => hquote (Option.some.inj h)
    rw [if_neg hopen, if_neg nofun]
  | cons d rest => rfl

/-- Symbols have two characters at most, neither of which ends a line. -/
theorem symbol_line : symbol c (cs ++ '\n' :: b) = symbol c cs := by
  unfold symbol
  cases cs with
  | nil =>
    have hpair : Symbol.ofChars? c '\n' = none := by
      unfold Symbol.ofChars?
      split <;> simp_all
    have hread : Symbol.read? c ('\n' :: b) = Symbol.read? c [] := by
      unfold Symbol.read?
      dsimp only
      rw [hpair]
    rw [List.nil_append, hread]
  | cons d cs => rfl

/-- A comment that is closed is closed, whatever follows it. -/
theorem commentTail_line (h : (commentTail cs).1 ≠ .bad .unterminatedComment) :
    commentTail (cs ++ '\n' :: b) = commentTail cs := by
  unfold commentTail at h ⊢
  cases hlen : Comment.length? cs with
  | none =>
    rw [hlen] at h
    exact absurd rfl h
  | some n =>
    obtain ⟨hle, htail⟩ := length?_eq_some hlen
    have hwhole := length?_tail htail (cs.drop n ++ '\n' :: b)
    rw [← List.append_assoc, List.take_append_drop, List.length_take_of_le hle] at hwhole
    rw [hwhole]

/-- What is read does not depend on the lines that follow. -/
theorem read_line (h : (read c cs).1 ≠ .bad .unterminatedComment) :
    read c (cs ++ '\n' :: b) = read c cs := by
  unfold read at h ⊢
  by_cases hblank : isBlank c = true
  · rw [if_pos hblank, if_pos hblank]
  rw [if_neg hblank] at h ⊢
  by_cases hdigit : Number.isDigit c = true
  · rw [if_pos hdigit, if_neg hblank, if_pos hdigit, number_line cs b hdigit]
  rw [if_neg hdigit] at h ⊢
  by_cases hletter : Number.isLetter c = true
  · rw [if_pos hletter, if_neg hblank, if_neg hdigit, if_pos hletter, word_line]
  rw [if_neg hletter] at h ⊢
  by_cases hquote : isQuote c = true
  · rw [if_pos hquote, if_neg hblank, if_neg hdigit, if_neg hletter, if_pos hquote,
      string_line cs b hquote]
  rw [if_neg hquote] at h ⊢
  rw [if_neg hblank, if_neg hdigit, if_neg hletter, if_neg hquote]
  split at h
  · next inside =>
    rw [← commentTail_line inside b h]
    rfl
  · next hno =>
    rw [← symbol_line cs b]
    split
    · next inside heq =>
      -- a line feed opens no comment
      cases cs with
      | nil => cases heq
      | cons d cs => exact absurd (congrArg (· :: cs) (List.cons.inj heq).1) (hno cs rfl)
    · rfl

end Lexeme

end Modula

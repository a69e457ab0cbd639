import Modula.Proofs.Lexeme.Comment
import Modula.Proofs.Lexeme.Number
/-!
# Lexemes and spellings

  What is read at the front of a source fits the characters that it takes (`read_takes`): a blank is
  one blank, a comment is a comment of the grammar, and a token is spelled by these characters.

  The other way round, a spelling of a well-formed kind is read as a token of this kind, as long as
  the text ends behind it or goes on with a space (`read_of_spells`).  Something has to stand there:
  `1` before `B`, `<` before `=` and `DIV` before `X` are read as something longer.
-/

namespace Modula.Lexeme

/-- What the lexeme says the text is.  Of a text that cannot be read it says nothing. -/
inductive Fits : Lexeme → Text → Prop
  | blank {c : Char} : isBlank c = true → Fits .blank [c]
  | comment {u : Text} : IsComment u → Fits .comment u
  | token {k : Token.Kind} {u : Text} : k.Spells u → Fits (.token k) u
  | bad (cause : LexError.Cause) (u : Text) : Fits (.bad cause) u

/-- What was found takes characters of the text only, and fits those that it takes. -/
def Takes (c : Char) (cs : Text) (found : Lexeme × Nat) : Prop :=
  found.2 ≤ cs.length ∧ Fits found.1 (c :: cs.take found.2)

/-! ## What is read fits -/

/-- A number takes its digits, its suffix, its fraction and its exponent, and keeps them all as a text.
-/
theorem number_takes {c : Char} {cs : Text} (hc : Number.isDigit c = true) :
    Takes c cs (number c cs) := by
  obtain ⟨hpos, hle, hshape⟩ := Number.read_reach cs hc
  unfold number
  generalize Number.read (c :: cs) = found at hpos hle hshape ⊢
  rcases found with ⟨shape, n⟩
  dsimp only at hpos hle hshape ⊢
  obtain ⟨m, rfl⟩ : ∃ m, n = m + 1 := ⟨n - 1, by omega⟩
  rw [List.take_succ_cons] at hshape ⊢
  refine ⟨by simpa using hle, ?_⟩
  rw [Nat.add_sub_cancel]
  have real : Fits (.token (.real (String.ofList (c :: cs.take m)))) (c :: cs.take m) := by
    have h := Token.Kind.Spells.real (String.ofList (c :: cs.take m))
    rw [String.toList_ofList] at h
    exact .token h
  have integer : ∀ {radix : Radix} {digits : Text}, c :: cs.take m = digits ++ radix.suffix →
      Fits (.token (.integer ⟨radix, String.ofList digits⟩)) (c :: cs.take m) := by
    intro radix digits h
    have hs := Token.Kind.Spells.integer ⟨radix, String.ofList digits⟩
    rw [String.toList_ofList, ← h] at hs
    exact .token hs
  split
  · exact integer (List.append_nil _).symm
  · next radix hdecimal =>
    -- the last character is the suffix letter
    obtain ⟨digits, hdigits, -⟩ := Number.exists_digits_of_shapeOf hc (hshape radix rfl)
    have hlast : (c :: cs.take m).dropLast = digits := by
      rw [hdigits]
      cases radix with
      | decimal => exact absurd rfl hdecimal
      | octal | char | hex | double => exact List.dropLast_concat
    rw [hlast]
    exact integer hdigits
  · exact real
  · exact .bad _ _

/-- A string takes both quotes, and keeps what is between them. -/
theorem string_takes {quote : Char} {cs : Text} (hq : isQuote quote = true) :
    Takes quote cs (string quote cs) := by
  -- The content ends at the quote, at the end of the line, or at the end of the text.
  obtain ⟨u, rest, rfl, hu, hr⟩ := exists_run (fun c => c != quote && c != '\n') cs
  unfold string
  rw [takeWhile_of_stops hu hr]
  dsimp only
  rw [List.drop_left]
  split
  · next hclose =>
    cases rest with
    | nil => cases hclose
    | cons d rest =>
      -- It ends at a quote, and that is the one it began with.
      obtain rfl : d = quote := Option.some.inj hclose
      refine ⟨by simp, ?_⟩
      have hfit : fitsIn d (String.ofList u).toList = true := by
        rw [String.toList_ofList]
        exact hu
      have hs := Token.Kind.Spells.string (String.ofList u) hq hfit
      have htake : (u ++ d :: rest).take (u.length + 1) = u ++ [d] := by
        rw [List.take_length_add_append]
        rfl
      rw [htake]
      rw [String.toList_ofList] at hs
      exact .token hs
  · exact ⟨by simp, .bad _ _⟩

/-- A word takes a run of letters and digits, and is a name or a reserved word. -/
theorem word_takes (c : Char) (cs : Text) : Takes c cs (word c cs) := by
  -- A word is as long as there are letters and digits.
  obtain ⟨u, rest, rfl, hu, hr⟩ := exists_run Number.isAlphanumeric cs
  unfold word
  rw [takeWhile_of_stops hu hr]
  dsimp only
  split
  · next k hk =>
    refine ⟨by simp, ?_⟩
    -- A word of the language is spelled in one way only.
    have hs := Token.Kind.Spells.word k
    rw [Keyword.spelling_of_ofSpelling? hk, String.toList_ofList] at hs
    rw [List.take_left]
    exact .token hs
  · refine ⟨by simp, ?_⟩
    have hs := Token.Kind.Spells.name (String.ofList (c :: u))
    rw [String.toList_ofList] at hs
    rw [List.take_left]
    exact .token hs

/-- A symbol of one character is spelled by it. -/
theorem spelling_of_ofChar? {c : Char} {s : Symbol} (h : Symbol.ofChar? c = some s) :
    s.spelling.toList = [c] := by
  unfold Symbol.ofChar? at h
  split at h <;> cases h <;> rfl

theorem spelling_of_ofChars? {c d : Char} {s : Symbol} (h : Symbol.ofChars? c d = some s) :
    s.spelling.toList = [c, d] := by
  unfold Symbol.ofChars? at h
  split at h <;> cases h <;> rfl

/-- A symbol that was read is spelled by the characters taken. -/
theorem spelling_of_read? {c : Char} {cs : Text} {s : Symbol} {more : Nat}
    (h : Symbol.read? c cs = some (s, more)) :
    more ≤ cs.length ∧ s.spelling.toList = c :: cs.take more := by
  -- What is no pair of characters is read as a single one.
  have single : (Symbol.ofChar? c).map (·, 0) = some (s, more) →
      more ≤ cs.length ∧ s.spelling.toList = c :: cs.take more := by
    intro h
    obtain ⟨s', hs, heq⟩ := Option.map_eq_some_iff.1 h
    obtain ⟨rfl, rfl⟩ := Prod.mk.inj heq
    exact ⟨Nat.zero_le _, spelling_of_ofChar? hs⟩
  unfold Symbol.read? at h
  split at h
  · exact single h
  · next d cs =>
    split at h
    · next s' hs =>
      obtain ⟨rfl, rfl⟩ := Prod.mk.inj (Option.some.inj h)
      exact ⟨by simp, spelling_of_ofChars? hs⟩
    · exact single h

/-- A symbol takes its spelling, and any other character is an error of its own. -/
theorem symbol_takes (c : Char) (cs : Text) : Takes c cs (symbol c cs) := by
  unfold symbol
  split
  · next s more hs =>
    obtain ⟨hle, htext⟩ := spelling_of_read? hs
    refine ⟨hle, ?_⟩
    show Fits _ (c :: cs.take more)
    rw [← htext]
    exact .token (.symbol s)
  · exact ⟨Nat.zero_le _, .bad _ _⟩

/-- A comment takes all of its characters, or all that are left. -/
theorem commentTail_takes (inside : Text) :
    Takes '(' ('*' :: inside) ((commentTail inside).1, (commentTail inside).2 + 1) := by
  unfold commentTail
  split
  · next length hlength =>
    obtain ⟨hle, htail⟩ := length?_eq_some hlength
    exact ⟨Nat.succ_le_succ hle, .comment (.comment htail)⟩
  · exact ⟨Nat.le_refl _, .bad _ _⟩

/-- What stands at the front of a source fits the characters that it takes. -/
theorem read_takes (c : Char) (cs : Text) : Takes c cs (read c cs) := by
  unfold read
  split_ifs with hblank hdigit hletter hquote
  · exact ⟨Nat.zero_le _, .blank hblank⟩
  · exact number_takes hdigit
  · exact word_takes c cs
  · exact string_takes hquote
  · split
    · exact commentTail_takes _
    · exact symbol_takes c cs

/-! ## What is spelled is read -/

/-- Nothing stands here, or a space. -/
def Apart (rest : Text) : Prop := ∀ c, rest.head? = some c → c = ' '

/-- A space stops every class of characters that it does not belong to. -/
theorem Apart.stops {rest : Text} (h : Apart rest) {p : Char → Bool} (hp : p ' ' = false) :
    Stops p rest := by
  intro c hc
  rw [h c hc]
  exact hp

/-- No token but a comment begins with a blank. -/
theorem isBlank_of_isAlphanumeric {c : Char} (hc : Number.isAlphanumeric c = true) :
    isBlank c = false := by
  cases h : isBlank c with
  | false => rfl
  | true =>
    simp only [isBlank, Bool.or_eq_true, beq_iff_eq] at h
    rcases h with (((rfl | rfl) | rfl) | rfl) | rfl <;> exact absurd hc (by decide)

theorem isDigit_of_isLetter {c : Char} (hc : Number.isLetter c = true) :
    Number.isDigit c = false := by
  cases h : Number.isDigit c with
  | false => rfl
  | true =>
    simp only [Number.isLetter, Number.isDigit, Bool.or_eq_true, Bool.and_eq_true,
      decide_eq_true_eq] at hc h
    rcases hc with hc | hc
    · exact absurd (Char.le_trans hc.1 h.2) (by decide)
    · exact absurd (Char.le_trans hc.1 h.2) (by decide)

/-- The first character tells how a token is read. -/
theorem read_of_digit {c : Char} (hc : Number.isDigit c = true) (cs : Text) :
    read c cs = number c cs := by
  have hblank := isBlank_of_isAlphanumeric (Number.isAlphanumeric_of_isDigit hc)
  unfold read
  rw [if_neg (Bool.eq_false_iff.1 hblank), if_pos hc]

theorem read_of_letter {c : Char} (hc : Number.isLetter c = true) (cs : Text) :
    read c cs = word c cs := by
  have hblank := isBlank_of_isAlphanumeric (Number.isAlphanumeric_of_isLetter hc)
  unfold read
  rw [if_neg (Bool.eq_false_iff.1 hblank), if_neg (Bool.eq_false_iff.1 (isDigit_of_isLetter hc)),
    if_pos hc]

theorem read_of_quote {c : Char} (hc : isQuote c = true) (cs : Text) : read c cs = string c cs := by
  simp only [isQuote, Bool.or_eq_true, beq_iff_eq] at hc
  rcases hc with rfl | rfl <;> rfl

/-- The digits and the suffix of a well-formed integer are one run of letters and digits. -/
theorem integer_isAlphanumeric {n : IntLiteral} (h : n.isWellFormed = true) :
    (n.digits.toList ++ n.radix.suffix).all Number.isAlphanumeric = true := by
  rcases n with ⟨radix, digits⟩
  simp only [IntLiteral.isWellFormed] at h
  rw [List.all_append, Bool.and_eq_true]
  -- The suffix is a letter or nothing.
  refine ⟨?_, by cases radix <;> rfl⟩
  cases radix with
  | decimal =>
    rw [isDigits, Bool.and_eq_true] at h
    exact Number.all_mono (fun c => Number.isAlphanumeric_of_isDigit) h.2
  | octal | char =>
    rw [Bool.and_eq_true] at h
    exact Number.all_mono
      (fun c hc => Number.isAlphanumeric_of_isDigit (Number.isDigit_of_isOctalDigit hc)) h.2
  | hex | double =>
    rw [Bool.and_eq_true] at h
    exact Number.all_mono (fun c => Number.isAlphanumeric_of_isHexDigit) h.2

/-- A well-formed integer begins with a digit. -/
theorem exists_digit {n : IntLiteral} (h : n.isWellFormed = true) :
    ∃ d ds, n.digits.toList = d :: ds ∧ Number.isDigit d = true := by
  rcases n with ⟨radix, digits⟩
  simp only [IntLiteral.isWellFormed] at h
  cases hd : digits.toList with
  -- No form of a number allows that there are no digits.
  | nil =>
    rw [hd] at h
    cases radix <;> cases h
  | cons d ds =>
    rw [hd] at h
    refine ⟨d, ds, rfl, ?_⟩
    cases radix with
    | decimal =>
      rw [isDigits, List.all_cons, Bool.and_eq_true, Bool.and_eq_true] at h
      exact h.2.1
    | octal | char =>
      rw [List.all_cons, Bool.and_eq_true, Bool.and_eq_true] at h
      exact Number.isDigit_of_isOctalDigit h.2.1
    | hex | double =>
      rw [Bool.and_eq_true] at h
      exact h.1

/-- A whole number begins with a digit, even if it is a hexadecimal one. -/
theorem integer_head {n : IntLiteral} {c : Char} {t : Text} (h : n.isWellFormed = true)
    (ht : n.digits.toList ++ n.radix.suffix = c :: t) : Number.isDigit c = true := by
  obtain ⟨d, ds, hdigits, hd⟩ := exists_digit h
  rw [hdigits, List.cons_append] at ht
  rw [← (List.cons.inj ht).1]
  exact hd

/-- A whole number is read back, with its radix, if something apart follows. -/
theorem number_of_integer {n : IntLiteral} {c : Char} {t rest : Text} (h : n.isWellFormed = true)
    (ht : n.digits.toList ++ n.radix.suffix = c :: t) (hr : Apart rest) :
    number c (t ++ rest) = (.token (.integer n), t.length) := by
  have hfirst : ∀ y, (c :: t).head? = some y → Number.isDigit y = true := by
    intro y hy
    rw [← Option.some.inj hy]
    exact integer_head h ht
  -- No point may follow, so there is no fraction.
  have hfraction : Number.startsFraction rest = false := by
    cases rest with
    | nil => rfl
    | cons y rest =>
      rw [hr y rfl]
      rfl
  -- So the longest run is the spelling as a whole, and its form is that of the literal.
  have hread : Number.read (c :: t ++ rest) = (.integer n.radix, (c :: t).length) := by
    rw [Number.read_of_run hfirst (ht ▸ integer_isAlphanumeric h) (hr.stops rfl) fun _ => hfraction,
      ← ht]
    have hshape : (IntLiteral.mk n.radix (String.ofList n.digits.toList)).isWellFormed = true := by
      rw [String.ofList_toList]
      exact h
    rw [Number.shapeOf_append_suffix hshape]
  rw [number, ← List.cons_append, hread]
  dsimp only
  rw [List.take_left]
  rcases n with ⟨radix, digits⟩
  cases radix with
  | decimal =>
    have hdigits : String.ofList (c :: t) = digits := by
      rw [← ht]
      exact (congrArg String.ofList (List.append_nil _)).trans String.ofList_toList
    rw [hdigits]
    rfl
  | octal | char | hex | double =>
    -- The digits are what is left without the suffix.
    have hdigits : String.ofList (c :: t).dropLast = digits := by
      rw [← ht]
      exact (congrArg String.ofList List.dropLast_concat).trans String.ofList_toList
    rw [hdigits]
    rfl

/-- So is a number with a fraction. -/
theorem number_of_real {text : String} {c : Char} {t rest : Text} (h : isReal text.toList = true)
    (ht : text.toList = c :: t) (hr : Apart rest) :
    number c (t ++ rest) = (.token (.real text), t.length) := by
  have hpoint : ∀ tail, rest ≠ '.' :: tail := by
    rintro tail rfl
    exact absurd (hr '.' rfl) (by decide)
  have hread : Number.read (c :: t ++ rest) = (.real, (c :: t).length) := by
    rw [← ht]
    exact Number.read_of_isReal h (hr.stops rfl) hpoint
  rw [number, ← List.cons_append, hread]
  dsimp only
  rw [List.take_left, ← ht, String.ofList_toList, ht]
  rfl

/-- And a string, if its quote is not in it and no line ends in it. -/
theorem string_of_fitsIn {quote : Char} {content rest : Text} (h : fitsIn quote content = true) :
    string quote (content ++ quote :: rest) =
      (.token (.string (String.ofList content)), content.length + 1) := by
  have hclose : Stops (fun c => c != quote && c != '\n') (quote :: rest) :=
    stops_cons.2 (by simp)
  rw [string, takeWhile_of_stops h hclose]
  rw [List.drop_left, List.head?_cons, if_pos rfl]

/-- A run of letters and digits is a reserved word or a name, and it is read to its end. -/
theorem word_of_run {c : Char} {t rest : Text} (ht : t.all Number.isAlphanumeric = true)
    (hr : Apart rest) :
    word c (t ++ rest) =
      (.token (match Keyword.ofSpelling? (String.ofList (c :: t)) with
        | some k => .word k
        | none => .name (String.ofList (c :: t))), t.length) := by
  rw [word, takeWhile_of_stops ht (hr.stops rfl)]
  cases Keyword.ofSpelling? (String.ofList (c :: t)) <;> rfl

/-- A reserved word is letters only. -/
theorem keyword_isLetter (k : Keyword) : k.spelling.toList.all Number.isLetter = true := by
  cases k <;> decide

/-- And a symbol. -/
theorem symbol_of_spelling {s : Symbol} {c : Char} {t rest : Text}
    (hs : c :: t = s.spelling.toList) (hr : Apart rest) :
    read c (t ++ rest) = (.token (.symbol s), t.length) := by
  cases rest with
  | nil =>
    rw [List.append_nil]
    cases s <;> (obtain ⟨rfl, rfl⟩ := List.cons.inj hs; rfl)
  | cons d rest =>
    rw [hr d rfl]
    cases s <;> (obtain ⟨rfl, rfl⟩ := List.cons.inj hs; rfl)

/-- A spelling of a well-formed kind is read to its end, where the text stands apart from it. -/
theorem read_of_spells {k : Token.Kind} {c : Char} {t rest : Text} (hk : k.isWellFormed = true)
    (hs : k.Spells (c :: t)) (hr : Apart rest) :
    read c (t ++ rest) = (.token k, t.length) := by
  generalize hu : c :: t = u at hs
  -- How a word is spelled decides which reader gets to see it.
  cases hs with
  | integer n => rw [read_of_digit (integer_head hk hu.symm), number_of_integer hk hu.symm hr]
  | real text =>
    rw [Token.Kind.isWellFormed] at hk
    have hc : Number.isDigit c = true := by
      rw [isReal, ← hu, Bool.and_eq_true, List.takeWhile_cons] at hk
      cases hc : Number.isDigit c with
      | true => rfl
      | false =>
        rw [hc] at hk
        cases hk.1
    rw [read_of_digit hc, number_of_real hk hu.symm hr]
  | string content hq hfit =>
    obtain ⟨rfl, rfl⟩ := List.cons.inj hu
    rw [read_of_quote hq, List.append_assoc, List.singleton_append, string_of_fitsIn hfit,
      String.ofList_toList, List.length_append]
    rfl
  | name text =>
    rw [Token.Kind.isWellFormed, isFreeName, ← hu] at hk
    simp only [Bool.and_eq_true] at hk
    -- A name that is free is not one of the words of the language.
    obtain ⟨⟨hc, ht⟩, hfree⟩ := hk
    rw [read_of_letter hc, word_of_run ht hr, hu, String.ofList_toList,
      Option.isNone_iff_eq_none.1 hfree]
  | word keyword =>
    have hletters := keyword_isLetter keyword
    rw [← hu, List.all_cons, Bool.and_eq_true] at hletters
    have ht : t.all Number.isAlphanumeric = true :=
      Number.all_mono (fun y => Number.isAlphanumeric_of_isLetter) hletters.2
    rw [read_of_letter hletters.1, word_of_run ht hr, hu, String.ofList_toList,
      Keyword.ofSpelling?_spelling]
  | symbol s => exact symbol_of_spelling hu hr

end Modula.Lexeme

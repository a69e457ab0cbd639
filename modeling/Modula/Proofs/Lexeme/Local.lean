import Modula.Proofs.Lexeme.Read
/-!
# How much of what follows a token matters

  A token is read to its end, and what stands behind it matters only as far as it makes the end: the
  first character behind it, and where this is a point, whether a second one follows.  So a token is
  read in front of every text that ends it just as well (`StopsLike`, `read_congr`).  In particular it
  is read when the source is cut off right behind it, and when a blank or a comment is put there:
  neither continues any token.
-/

namespace Modula

/-- The characters with which a gap begins: a blank, or the parenthesis of a comment. -/
def Lexeme.beginsGap (c : Char) : Bool := isBlank c || c == '('

/-- The second text makes an end of everything that the first one makes an end of. -/
structure StopsLike (rest rest' : Text) : Prop where
  head : ∀ c, rest'.head? = some c → rest.head? = some c ∨ Lexeme.beginsGap c = true
  fraction : Number.startsFraction rest' = true → Number.startsFraction rest = true

theorem StopsLike.nil (rest : Text) : StopsLike rest [] := ⟨nofun, nofun⟩

/-- The characters with which a gap begins. -/
theorem Lexeme.eq_of_beginsGap {c : Char} (h : beginsGap c = true) :
    c = ' ' ∨ c = '\t' ∨ c = '\r' ∨ c = '\n' ∨ c = '\x0c' ∨ c = '(' := by
  simp only [beginsGap, isBlank, Bool.or_eq_true, beq_iff_eq] at h
  rcases h with ((((h | h) | h) | h) | h) | h <;> simp [h]

/-- No letter and no digit begins a gap. -/
theorem StopsLike.stops {rest rest' : Text} (h : StopsLike rest rest')
    (hr : Stops Number.isAlphanumeric rest) : Stops Number.isAlphanumeric rest' := by
  intro c hc
  rcases h.head c hc with hsame | hgap
  · exact hr c hsame
  · rcases Lexeme.eq_of_beginsGap hgap with rfl | rfl | rfl | rfl | rfl | rfl <;> decide

/-- A sign in front of the first text is one in front of the second, if it does not begin a gap. -/
theorem StopsLike.head_eq {c : Char} {rest rest' : Text} (h : StopsLike rest rest')
    (hc : Lexeme.beginsGap c = false) (hrest : rest'.head? = some c) : rest.head? = some c := by
  rcases h.head c hrest with hsame | hgap
  · exact hsame
  · rw [hc] at hgap
    cases hgap

/-! ## Numbers -/

namespace Number

/-- A run of no characters stops at once. -/
theorem stops_of_run {p : Char → Bool} {cs : Text} (h : run p cs = 0) : Stops p cs := by
  obtain ⟨u, rest, rfl, hu, hr⟩ := exists_run p cs
  rw [run_of_stops hu hr] at h
  rwa [List.length_eq_zero_iff.1 h]

/-- What a run of digits takes are digits. -/
theorem isDigits_take_run {cs : Text} {n : Nat} (h : run isDigit cs = n + 1) :
    isDigits (cs.take (n + 1)) = true := by
  obtain ⟨u, rest, rfl, hu, hr⟩ := exists_run isDigit cs
  rw [run_of_stops hu hr] at h
  obtain ⟨d, u, rfl⟩ := List.exists_cons_of_length_eq_add_one h
  rw [← h, List.take_left]
  exact hu

/-- A letter and digits are an exponent. -/
theorem isExponent_of_isDigits {digits : Text} (h : isDigits digits = true) :
    isExponent ('E' :: digits) = true := by
  unfold isExponent
  split
  · next heq => cases heq
  · next heq =>
    rw [(List.cons.inj heq).2] at h
    cases h
  · next heq =>
    rw [(List.cons.inj heq).2] at h
    cases h
  · next heq => rwa [← (List.cons.inj heq).2]
  · next hno => exact absurd rfl (hno _)

/-- What is taken for an exponent is one. -/
theorem isExponent_take (cs : Text) : isExponent (cs.take (exponentLength cs)) = true := by
  unfold exponentLength
  split
  · next cs =>
    cases h : run isDigit cs with
    | zero => rfl
    | succ n => exact isDigits_take_run h
  · next cs =>
    cases h : run isDigit cs with
    | zero => rfl
    | succ n => exact isDigits_take_run h
  · next cs hplus hminus =>
    cases h : run isDigit cs with
    | zero => rfl
    | succ n =>
      exact isExponent_of_isDigits (isDigits_take_run h)
  · rfl

/-- Whatever follows, an exponent of some length is taken, possibly none. -/
theorem exists_exponent (cs : Text) :
    ∃ e rest, cs = e ++ rest ∧ isExponent e = true ∧ exponentLength cs = e.length :=
  ⟨_, _, (List.take_append_drop _ _).symm, isExponent_take cs,
    (List.length_take_of_le (exponentLength_le_length cs)).symm⟩

/-- A number that is not spoiled ends where letters and digits do. -/
theorem closed_eq {cs : Text} {n m : Nat} {shape shape' : Shape}
    (h : closed cs n shape = (shape', m)) (hshape : shape' ≠ .malformed) :
    shape = shape' ∧ n = m ∧ Stops isAlphanumeric (cs.drop n) := by
  unfold closed at h
  split at h
  · next hrun =>
    obtain ⟨rfl, rfl⟩ := Prod.mk.inj h
    exact ⟨rfl, rfl, stops_of_run hrun⟩
  · exact absurd (Prod.mk.inj h).1.symm hshape

/-- A number that is not malformed is read in front of every text that ends it. -/
theorem read_congr {c : Char} {t rest rest' : Text} {shape : Shape} (hc : isDigit c = true)
    (h : StopsLike rest rest') (hread : read (c :: t ++ rest) = (shape, (c :: t).length))
    (hshape : shape ≠ .malformed) : read (c :: t ++ rest') = (shape, (c :: t).length) := by
  obtain ⟨u, r, hcut, hu, hr⟩ := exists_run isAlphanumeric (c :: t ++ rest)
  have hfirst : ∀ y, u.head? = some y → isDigit y = true := by
    intro y hy
    obtain ⟨v, rfl⟩ := List.head?_eq_some_iff.1 hy
    rwa [← (List.cons.inj hcut).1]
  rw [hcut] at hread
  by_cases hp : u.all isDigit = true → startsFraction r = false
  · rw [read_of_run hfirst hu hr hp] at hread
    obtain ⟨rfl, hlen⟩ := Prod.mk.inj hread
    obtain ⟨rfl, rfl⟩ := List.append_inj hcut hlen.symm
    refine read_of_run hfirst hu (h.stops hr) fun hdigits => ?_
    rw [← Bool.not_eq_true]
    exact fun hpoint => absurd (h.fraction hpoint) (by rw [hp hdigits]; exact Bool.false_ne_true)
  · obtain ⟨hdigits, hpoint⟩ := Classical.not_imp.1 hp
    obtain ⟨fraction, rfl, hrange⟩ := eq_of_startsFraction (Bool.not_eq_false _ ▸ hpoint)
    obtain ⟨f, tail, rfl, hf, htail⟩ := exists_run isDigit fraction
    obtain ⟨e, r, rfl, he, hlen⟩ := exists_exponent tail
    have hassoc : ∀ r : Text, u ++ '.' :: (f ++ (e ++ r)) = (u ++ '.' :: (f ++ e)) ++ r := by simp
    have hall : u.length + 1 + f.length + e.length = (u ++ '.' :: (f ++ e)).length := by
      simp only [List.length_append, List.length_cons]
      omega
    rw [read_of_fraction hdigits hf htail hrange, hlen] at hread
    obtain ⟨rfl, hn, hend⟩ := closed_eq hread hshape
    rw [hassoc, hall, List.drop_left] at hend
    rw [hassoc] at hcut
    obtain ⟨hnumber, rfl⟩ := List.append_inj hcut (by rw [← hn, hall])
    -- what followed the point, and the exponent, is there as before
    have hstop : Stops isDigit (e ++ rest') := by
      cases e with
      | nil => exact (h.stops hend).mono fun c => isAlphanumeric_of_isDigit
      | cons y e => exact stops_cons.2 (stops_cons.1 htail)
    have hpoint' : ∀ tail, f ++ (e ++ rest') ≠ '.' :: tail := by
      intro tail heq
      cases f with
      | cons y f => exact hrange _ (congrArg (· :: _) (List.cons.inj heq).1)
      | nil =>
        cases e with
        | cons y e => exact hrange _ (congrArg (· :: _) (List.cons.inj heq).1)
        | nil =>
          have hhead : rest'.head? = some '.' := congrArg List.head? heq
          obtain ⟨tail', hrest⟩ := List.head?_eq_some_iff.1 (h.head_eq rfl hhead)
          exact hrange _ hrest
    rw [hnumber, ← hassoc, read_of_fraction hdigits hf hstop hpoint',
      exponentLength_of_isExponent he (h.stops hend), hall, hassoc, closed_of_stops (h.stops hend)]

end Number

/-! ## Tokens -/

namespace Lexeme

variable {c : Char} {t rest rest' : Text} {k : Token.Kind}

/-- A number is read the same in front of any text that stops it alike. -/
theorem number_congr (hc : Number.isDigit c = true) (h : StopsLike rest rest')
    (hread : number c (t ++ rest) = (.token k, t.length)) :
    number c (t ++ rest') = (.token k, t.length) := by
  obtain ⟨hpos, -, -⟩ := Number.read_reach (t ++ rest) hc
  unfold number at hread
  generalize hfound : Number.read (c :: (t ++ rest)) = found at hread hpos
  obtain ⟨shape, n⟩ := found
  obtain ⟨hlexeme, hn⟩ := Prod.mk.inj hread
  obtain rfl : n = (c :: t).length := by
    rw [List.length_cons]
    dsimp only at hpos hn
    omega
  have hshape : shape ≠ .malformed := by
    rintro rfl
    cases hlexeme
  -- a number that is not malformed ends where nothing of it could follow
  have hfound' : Number.read (c :: (t ++ rest')) = (shape, (c :: t).length) :=
    Number.read_congr hc h hfound hshape
  have htake : ∀ r : Text, (c :: (t ++ r)).take (c :: t).length = c :: t :=
    fun _ => List.take_left
  unfold number
  rw [hfound']
  dsimp only at hlexeme ⊢
  rw [htake] at hlexeme ⊢
  rw [hlexeme]
  rfl

/-- A word is read the same in front of any text that stops it alike. -/
theorem word_congr (h : StopsLike rest rest') (hread : word c (t ++ rest) = (.token k, t.length)) :
    word c (t ++ rest') = (.token k, t.length) := by
  obtain ⟨u, r, hcut, hu, hr⟩ := exists_run Number.isAlphanumeric (t ++ rest)
  unfold word at hread ⊢
  rw [hcut, takeWhile_of_stops hu hr] at hread
  have hlen : u.length = t.length := by
    dsimp only at hread
    split at hread <;> exact (Prod.mk.inj hread).2
  obtain ⟨rfl, rfl⟩ := List.append_inj hcut hlen.symm
  rwa [takeWhile_of_stops hu (h.stops hr)]

/-- A string is closed by its quote, so what follows does not matter. -/
theorem string_congr (hread : string c (t ++ rest) = (.token k, t.length)) :
    string c (t ++ rest') = (.token k, t.length) := by
  obtain ⟨u, r, hcut, hu, hr⟩ := exists_run (fun d => d != c && d != '\n') (t ++ rest)
  unfold string at hread
  rw [hcut, takeWhile_of_stops hu hr] at hread
  dsimp only at hread
  rw [List.drop_left] at hread
  split at hread
  · next hclose =>
    obtain ⟨r, rfl⟩ := List.head?_eq_some_iff.1 hclose
    obtain ⟨hk, hlen⟩ := Prod.mk.inj hread
    have hcut' : t ++ rest = (u ++ [c]) ++ r := by simpa using hcut
    obtain ⟨rfl, rfl⟩ := List.append_inj hcut' (by simpa using hlen.symm)
    rw [List.append_assoc, List.singleton_append, string_of_fitsIn hu, hk, hlen]
  · cases hread

/-- A sign of one character is also read at the end of the text. -/
theorem symbolRead_alone {s : Symbol} (hread : Symbol.read? c rest = some (s, 0)) :
    Symbol.read? c [] = some (s, 0) := by
  cases rest with
  | nil => exact hread
  | cons d rest =>
    unfold Symbol.read? at hread
    dsimp only at hread
    split at hread
    · cases hread
    · exact hread

/-- No sign of two characters ends with the beginning of a gap. -/
theorem symbolRead_beginsGap {d : Char} (hd : beginsGap d = true) :
    Symbol.read? c (d :: rest) = Symbol.read? c [] := by
  have hpair : Symbol.ofChars? c d = none := by
    unfold Symbol.ofChars?
    split <;> first | rfl | exact absurd hd (by decide)
  unfold Symbol.read?
  dsimp only
  rw [hpair]

/-- A symbol of one character depends on what follows, as far as it may begin one of two. -/
theorem symbolRead_congr {s : Symbol} (h : StopsLike rest rest')
    (hread : Symbol.read? c (t ++ rest) = some (s, t.length)) :
    Symbol.read? c (t ++ rest') = some (s, t.length) := by
  cases t with
  | cons d t => exact hread
  | nil =>
    cases rest' with
    | nil => exact symbolRead_alone hread
    | cons d rest' =>
      rcases h.head d rfl with hsame | hgap
      · obtain ⟨r, rfl⟩ := List.head?_eq_some_iff.1 hsame
        exact hread
      · exact (symbolRead_beginsGap hgap).trans (symbolRead_alone hread)

theorem symbol_congr (h : StopsLike rest rest')
    (hread : symbol c (t ++ rest) = (.token k, t.length)) :
    symbol c (t ++ rest') = (.token k, t.length) := by
  unfold symbol at hread
  split at hread
  · next s more hs =>
    obtain ⟨hk, rfl⟩ := Prod.mk.inj hread
    rw [symbol, symbolRead_congr h hs, ← hk]
  · cases hread

/-- A comment is no token. -/
theorem commentTail_ne_token (inside : Text) : (commentTail inside).1 ≠ .token k := by
  unfold commentTail
  split <;> nofun

/-- A token is read in front of every text that ends it. -/
theorem read_congr (h : StopsLike rest rest') (hread : read c (t ++ rest) = (.token k, t.length)) :
    read c (t ++ rest') = (.token k, t.length) := by
  unfold read at hread ⊢
  by_cases hblank : isBlank c = true
  · rw [if_pos hblank] at hread
    cases hread
  rw [if_neg hblank] at hread ⊢
  by_cases hdigit : Number.isDigit c = true
  · rw [if_pos hdigit] at hread ⊢
    exact number_congr hdigit h hread
  rw [if_neg hdigit] at hread ⊢
  by_cases hletter : Number.isLetter c = true
  · rw [if_pos hletter] at hread ⊢
    exact word_congr h hread
  rw [if_neg hletter] at hread ⊢
  by_cases hquote : isQuote c = true
  · rw [if_pos hquote] at hread ⊢
    exact string_congr hread
  rw [if_neg hquote] at hread ⊢
  split at hread
  · next inside heq =>
    exact absurd (congrArg Prod.fst hread) (commentTail_ne_token inside)
  · next hno =>
    split
    · next inside heq =>
      -- no comment can have begun before that does not begin now
      have hhead : (t ++ rest).head? = some '*' := by
        cases t with
        | nil => exact h.head_eq rfl (congrArg List.head? heq)
        | cons d t => exact congrArg (fun x => some x) (List.cons.inj heq).1
      obtain ⟨inside', hinside⟩ := List.head?_eq_some_iff.1 hhead
      exact absurd hinside (hno _ rfl)
    · exact symbol_congr h hread

end Lexeme

end Modula

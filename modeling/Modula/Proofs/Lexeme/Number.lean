import Modula.Proofs.Lexeme.Run
import Modula.Proofs.Spelling
/-!
# The form of a number is read off its longest run

  A number is tried form by form, and every form has its own idea of how far it goes.  Seen from the
  outside it is simpler than that.  Unless the digits in front are followed by a point that belongs to
  a real, the number is the longest run of letters and digits, and the form of that run decides
  everything (`shapeOf`, `read_of_run`):

      digits              decimal
      octal digits, B     octal
      octal digits, C     character code
      hex digits, H       hexadecimal
      hex digits, D       double length
      anything else       malformed

  B, C and D are hexadecimal digits themselves, so the crux is a run of hexadecimal digits with a
  character behind it that is none: the run is malformed, unless that character is a final `H`
  (`shapeOf_of_notHex`).
-/

namespace Modula.Number

/-- The shape of a run of letters and digits. -/
def shapeOf (text : Text) : Shape :=
  if text.all isDigit then .integer .decimal
  else if text.getLast? = some 'H' ∧ text.dropLast.all isHexDigit then .integer .hex
  else if text.getLast? = some 'B' ∧ text.dropLast.all isOctalDigit then .integer .octal
  else if text.getLast? = some 'C' ∧ text.dropLast.all isOctalDigit then .integer .char
  else if text.getLast? = some 'D' ∧ text.dropLast.all isHexDigit then .integer .double
  else .malformed

/-! ## Classes of characters -/

theorem isDigit_of_isOctalDigit {c : Char} (h : isOctalDigit c = true) : isDigit c = true := by
  simp only [isOctalDigit, isDigit, Bool.and_eq_true, decide_eq_true_eq] at h ⊢
  exact ⟨h.1, Char.le_trans h.2 (by decide)⟩

theorem isHexDigit_of_isDigit {c : Char} (h : isDigit c = true) : isHexDigit c = true := by
  rw [isHexDigit, h, Bool.true_or]

theorem isAlphanumeric_of_isDigit {c : Char} (h : isDigit c = true) : isAlphanumeric c = true := by
  rw [isAlphanumeric, h, Bool.or_true]

theorem isAlphanumeric_of_isLetter {c : Char} (h : isLetter c = true) :
    isAlphanumeric c = true := by
  rw [isAlphanumeric, h, Bool.true_or]

/-- All digits of a number are characters that may stand in one. -/
theorem isAlphanumeric_of_isHexDigit {c : Char} (h : isHexDigit c = true) :
    isAlphanumeric c = true := by
  simp only [isHexDigit, isAlphanumeric, isLetter, Bool.or_eq_true, Bool.and_eq_true,
    decide_eq_true_eq] at h ⊢
  rcases h with h | h
  · exact Or.inr h
  · exact Or.inl (Or.inr ⟨h.1, Char.le_trans h.2 (by decide)⟩)

/-- A larger class of characters. -/
theorem all_mono {p q : Char → Bool} (hpq : ∀ c, p c = true → q c = true) {u : Text}
    (h : u.all p = true) : u.all q = true :=
  List.all_eq_true.2 fun c hc => hpq c (List.all_eq_true.1 h c hc)

/-! ## Shapes of runs

  The shape tells the form of a number from its whole run at once.  The scanner finds it from left to
  right, and falls back where a letter turns out to be no suffix. -/

/-- Digits without a suffix are a decimal number. -/
theorem shapeOf_of_digits {u : Text} (h : u.all isDigit = true) : shapeOf u = .integer .decimal :=
  if_pos h

/-- If not all of a run are digits, its last character decides the form. -/
theorem shapeOf_concat {u : Text} {c : Char} (h : ¬ (u ++ [c]).all isDigit = true) :
    shapeOf (u ++ [c]) =
      if c = 'H' ∧ u.all isHexDigit then .integer .hex
      else if c = 'B' ∧ u.all isOctalDigit then .integer .octal
      else if c = 'C' ∧ u.all isOctalDigit then .integer .char
      else if c = 'D' ∧ u.all isHexDigit then .integer .double
      else .malformed := by
  rw [shapeOf, if_neg h, List.getLast?_concat, List.dropLast_concat]
  simp only [Option.some.injEq]

/-- A character that is no hexadecimal digit spoils a run, unless it is a final `H`. -/
theorem shapeOf_of_notHex {u v : Text} {y : Char} (hy : isHexDigit y = false)
    (hlast : v ≠ [] ∨ y ≠ 'H') : shapeOf (u ++ y :: v) = .malformed := by
  have hdigit : isDigit y = false := by
    cases h : isDigit y with
    | false => rfl
    | true => rw [isHexDigit_of_isDigit h] at hy; exact hy
  have hoctal : isOctalDigit y = false := by
    cases h : isOctalDigit y with
    | false => rfl
    | true => rw [isDigit_of_isOctalDigit h] at hdigit; exact hdigit
  rcases List.eq_nil_or_concat v with rfl | ⟨v, c, rfl⟩
  · -- the last character is the one in question
    have hH : y ≠ 'H' := hlast.resolve_left fun hne => hne rfl
    have hne : y ≠ 'B' ∧ y ≠ 'C' ∧ y ≠ 'D' := by
      refine ⟨?_, ?_, ?_⟩ <;> rintro rfl <;> exact absurd hy (by decide)
    have hdig : ¬ (u ++ [y]).all isDigit = true := by simp [hdigit]
    rw [shapeOf_concat hdig]
    simp [hH, hne.1, hne.2.1, hne.2.2]
  · -- whatever comes last, the characters before it are not all digits of the form
    have hhex : ¬ (u ++ y :: v).all isHexDigit = true := by simp [hy]
    have hoct : ¬ (u ++ y :: v).all isOctalDigit = true := by simp [hoctal]
    have hdig : ¬ (u ++ y :: v ++ [c]).all isDigit = true := by simp [hdigit]
    have happend : u ++ y :: v.concat c = u ++ y :: v ++ [c] := by simp
    rw [happend, shapeOf_concat hdig, if_neg fun h => hhex h.2, if_neg fun h => hoct h.2,
      if_neg fun h => hoct h.2, if_neg fun h => hhex h.2]

/-- On hexadecimal digits that are not all decimal, the suffix rule gives the shape of the run. -/
theorem suffixed_eq_shapeOf {u : Text} {c : Char} (hne : u ≠ []) (hu : u.all isHexDigit = true)
    (hc : isHexDigit c = true) (hall : ¬ (u ++ [c]).all isDigit = true) :
    suffixed u c = shapeOf (u ++ [c]) := by
  -- The suffix of a hexadecimal number is no hexadecimal digit, unlike the other three.
  have hH : c ≠ 'H' := by
    rintro rfl
    exact absurd hc (by decide)
  have hempty : u.isEmpty = false := by simpa using hne
  rw [shapeOf_concat hall, if_neg fun h => hH h.1]
  unfold suffixed
  split
  · simp [isOctal, hempty]
  · simp [isOctal, hempty]
  · simp [hu]
  · next hB hC hD => rw [if_neg fun h => hB h.1, if_neg fun h => hC h.1, if_neg fun h => hD h.1]

/-- What is put together from digits and a suffix letter has the form of that letter. -/
theorem shapeOf_append_suffix {radix : Radix} {digits : Text}
    (h : (IntLiteral.mk radix (String.ofList digits)).isWellFormed = true) :
    shapeOf (digits ++ radix.suffix) = .integer radix := by
  -- With a suffix the digits are no decimal number any more.
  have notDigits : ∀ {c : Char}, isDigit c = false → ¬ (digits ++ [c]).all isDigit = true := by
    intro c hc
    simp [hc]
  -- A form that asks for another suffix is passed over.
  have other : ∀ {a b : Char} {q : Prop}, a ≠ b → ¬ (a = b ∧ q) := fun hne h => hne h.1
  simp only [IntLiteral.isWellFormed, String.toList_ofList] at h
  cases radix with
  | decimal =>
    rw [isDigits, Bool.and_eq_true] at h
    show shapeOf (digits ++ []) = _
    rw [List.append_nil, shapeOf_of_digits h.2]
  | octal =>
    rw [Bool.and_eq_true] at h
    show shapeOf (digits ++ ['B']) = _
    rw [shapeOf_concat (notDigits rfl), if_neg (other (by decide)), if_pos ⟨rfl, h.2⟩]
  | char =>
    rw [Bool.and_eq_true] at h
    show shapeOf (digits ++ ['C']) = _
    rw [shapeOf_concat (notDigits rfl), if_neg (other (by decide)), if_neg (other (by decide)),
      if_pos ⟨rfl, h.2⟩]
  | hex =>
    rw [Bool.and_eq_true] at h
    show shapeOf (digits ++ ['H']) = _
    rw [shapeOf_concat (notDigits rfl), if_pos ⟨rfl, h.2⟩]
  | double =>
    rw [Bool.and_eq_true] at h
    show shapeOf (digits ++ ['D']) = _
    rw [shapeOf_concat (notDigits rfl), if_neg (other (by decide)), if_neg (other (by decide)),
      if_neg (other (by decide)), if_pos ⟨rfl, h.2⟩]

/-- A run that begins with a digit and has the form of an integer is digits of that form and its
suffix letter. -/
theorem exists_digits_of_shapeOf {c : Char} {cs : Text} {radix : Radix} (hc : isDigit c = true)
    (h : shapeOf (c :: cs) = .integer radix) :
    ∃ digits, c :: cs = digits ++ radix.suffix ∧
      (IntLiteral.mk radix (String.ofList digits)).isWellFormed = true := by
  simp only [IntLiteral.isWellFormed, String.toList_ofList]
  by_cases hdigits : (c :: cs).all isDigit = true
  · rw [shapeOf_of_digits hdigits] at h
    cases h
    refine ⟨c :: cs, (List.append_nil _).symm, ?_⟩
    show isDigits _ = true
    rw [isDigits, hdigits]
    rfl
  · -- the last character is a letter, so that digits stand before it
    rcases List.eq_nil_or_concat cs with rfl | ⟨u, y, rfl⟩
    · exact absurd (by simpa using hc) hdigits
    · have hcut : c :: u.concat y = (c :: u) ++ [y] := by simp
      rw [hcut] at h hdigits ⊢
      rw [shapeOf_concat hdigits] at h
      have hhead : (c :: u).head?.any isDigit = true := hc
      -- Each form tells of the letter that comes last and of the digits in front of it.
      split_ifs at h with hH hB hC hD
      · cases h
        exact ⟨c :: u, by rw [hH.1]; rfl, by rw [hhead, hH.2]; rfl⟩
      · cases h
        exact ⟨c :: u, by rw [hB.1]; rfl, by rw [hB.2]; rfl⟩
      · cases h
        exact ⟨c :: u, by rw [hC.1]; rfl, by rw [hC.2]; rfl⟩
      · cases h
        exact ⟨c :: u, by rw [hD.1]; rfl, by rw [hhead, hD.2]; rfl⟩

/-! ## Closing a number -/

/-- A number is closed if no letter and no digit follows it. -/
theorem closed_of_stops {u rest : Text} {shape : Shape} (hr : Stops isAlphanumeric rest) :
    closed (u ++ rest) u.length shape = (shape, u.length) := by
  have hrun : run isAlphanumeric rest = 0 := by
    rw [← List.nil_append rest, run_of_stops rfl hr]
    rfl
  rw [closed, List.drop_left, hrun]

/-- Where letters or digits follow, the number takes all of them and is malformed. -/
theorem closed_of_run {u a rest : Text} {shape : Shape} (ha : a.all isAlphanumeric = true)
    (hne : a ≠ []) (hr : Stops isAlphanumeric rest) :
    closed (u ++ (a ++ rest)) u.length shape = (.malformed, u.length + a.length) := by
  obtain ⟨extra, hextra⟩ : ∃ extra, a.length = extra + 1 :=
    ⟨a.length - 1, by have := List.length_pos_iff.2 hne; omega⟩
  rw [closed, List.drop_left, run_of_stops ha hr, hextra]

/-! ## Integers

  Three cases, as the scanner has them: hexadecimal digits only, a letter that closes them, and any other
  letter. -/

/-- A run of hexadecimal digits is an integer without an `H`. -/
theorem readInteger_of_hex {u rest : Text} (hfirst : ∀ c, u.head? = some c → isDigit c = true)
    (hu : u.all isHexDigit = true) (hr : Stops isAlphanumeric rest) :
    readInteger (u ++ rest) (run isDigit (u ++ rest)) = (shapeOf u, u.length) := by
  -- The run of hexadecimal digits is all there is, and none of them is an `H`.
  have hhexes : run isHexDigit (u ++ rest) = u.length :=
    run_of_stops hu (hr.mono fun c => isAlphanumeric_of_isHexDigit)
  have hH : ∀ tail, rest ≠ 'H' :: tail := by
    rintro tail rfl
    exact absurd (stops_cons.1 hr) (by decide)
  unfold readInteger
  rw [hhexes]
  dsimp only
  rw [List.drop_left]
  split
  · exact absurd rfl (hH _)
  · obtain ⟨d, e, rfl, hd, he⟩ := exists_run isDigit u
    have hdigits : run isDigit (d ++ e ++ rest) = d.length := by
      rw [List.append_assoc]
      exact run_of_stops hd (he.append (hr.mono fun c => isAlphanumeric_of_isDigit))
    rw [hdigits]
    rcases List.eq_nil_or_concat e with rfl | ⟨e, c, rfl⟩
    · -- all digits are decimal
      rw [List.append_nil, if_pos rfl, closed_of_stops hr, shapeOf_of_digits hd]
    · -- the last digit is the suffix
      rw [List.concat_eq_append] at he hu hdigits hfirst ⊢
      have hall : ¬ (d ++ (e ++ [c])).all isDigit = true := not_all_of_stops he (by simp)
      have hd' : d ++ e ≠ [] := by
        intro hnil
        obtain ⟨rfl, rfl⟩ := List.append_eq_nil_iff.1 hnil
        exact absurd (hfirst c rfl) (by rw [stops_cons.1 he]; exact Bool.false_ne_true)
      have hne : (d ++ (e ++ [c])).length ≠ d.length := by simp
      have hlen : (d ++ (e ++ [c])).length - 1 = (d ++ e).length := by simp
      have hcut : d ++ (e ++ [c]) ++ rest = (d ++ e) ++ (c :: rest) := by simp
      rw [← List.append_assoc] at hu hall
      rw [List.all_append, Bool.and_eq_true] at hu
      have hc : isHexDigit c = true := by simpa using hu.2
      rw [if_neg hne, hlen, hcut, List.drop_left, List.take_left]
      show closed (d ++ e ++ c :: rest) _ (suffixed (d ++ e) c) = _
      rw [suffixed_eq_shapeOf hd' hu.1 hc hall, ← hcut, closed_of_stops hr, List.append_assoc]

/-- A letter that is no hexadecimal digit ends an integer or spoils it. -/
theorem readInteger_of_letter {h a rest : Text} {y : Char} (hh : h.all isHexDigit = true)
    (hy : isHexDigit y = false) (ha : (y :: a).all isAlphanumeric = true)
    (hr : Stops isAlphanumeric rest) :
    readInteger (h ++ (y :: a ++ rest)) (run isDigit (h ++ (y :: a ++ rest))) =
      (shapeOf (h ++ y :: a), (h ++ y :: a).length) := by
  -- The run of hexadecimal digits stops at the letter.
  have hhexes : run isHexDigit (h ++ (y :: a ++ rest)) = h.length :=
    run_of_stops hh (stops_cons.2 hy)
  unfold readInteger
  rw [hhexes]
  dsimp only
  rw [List.drop_left]
  by_cases hH : y = 'H'
  · subst hH
    have hcut : h ++ ('H' :: a ++ rest) = (h ++ ['H']) ++ (a ++ rest) := by simp
    have hlen : h.length + 1 = (h ++ ['H']).length := by simp
    show closed (h ++ ('H' :: a ++ rest)) (h.length + 1) (.integer .hex) = _
    rw [hcut, hlen]
    -- An `H` closes the number, unless letters or digits follow it.
    cases a with
    | nil =>
      have hnot : ¬ (h ++ ['H']).all isDigit = true := by simp [isDigit]
      rw [List.nil_append, closed_of_stops hr, shapeOf_concat hnot, if_pos ⟨rfl, hh⟩]
    | cons z a =>
      have hza : (z :: a).all isAlphanumeric = true := by
        rw [List.all_cons, Bool.and_eq_true] at ha
        exact ha.2
      rw [closed_of_run hza (List.cons_ne_nil z a) hr,
        shapeOf_of_notHex hy (Or.inl (List.cons_ne_nil z a))]
      simp; omega
  · -- whatever form the digits have by themselves, the letter spoils it
    have hclosed : ∀ shape, closed (h ++ (y :: a ++ rest)) h.length shape =
        (shapeOf (h ++ y :: a), (h ++ y :: a).length) := by
      intro shape
      rw [closed_of_run ha (List.cons_ne_nil y a) hr, shapeOf_of_notHex hy (Or.inr hH),
        List.length_append]
    split
    · next tail heq => exact absurd (List.cons.inj heq).1 hH
    · split
      · next hdigits =>
        rw [← hdigits]
        exact hclosed _
      · split
        · exact hclosed _
        · exact hclosed _

/-- Whatever form is tried, an integer is the longest run of letters and digits, with its shape. -/
theorem readInteger_of_run {u rest : Text} (hfirst : ∀ c, u.head? = some c → isDigit c = true)
    (hu : u.all isAlphanumeric = true) (hr : Stops isAlphanumeric rest) :
    readInteger (u ++ rest) (run isDigit (u ++ rest)) = (shapeOf u, u.length) := by
  obtain ⟨h, a, rfl, hh, ha⟩ := exists_run isHexDigit u
  cases a with
  | nil =>
    rw [List.append_nil] at hfirst ⊢
    exact readInteger_of_hex hfirst hh hr
  | cons y a =>
    rw [List.all_append, Bool.and_eq_true] at hu
    rw [List.append_assoc]
    exact readInteger_of_letter hh (stops_cons.1 ha) hu.2 hr

/-! ## Numbers

  Without a fraction the shape of the run is all there is to say.  With one the number is a real, or it is
  malformed. -/

/-- Whether a point stands here that belongs to the digits before it. -/
def startsFraction : Text → Bool
  | '.' :: '.' :: _ => false
  | '.' :: _ => true
  | _ => false

/-- Without a fraction, a number is the longest run of letters and digits. -/
theorem read_of_run {u rest : Text} (hfirst : ∀ c, u.head? = some c → isDigit c = true)
    (hu : u.all isAlphanumeric = true) (hr : Stops isAlphanumeric rest)
    (hp : u.all isDigit = true → startsFraction rest = false) :
    read (u ++ rest) = (shapeOf u, u.length) := by
  have hint := readInteger_of_run hfirst hu hr
  -- behind the digits comes a letter, or the end of the run
  have hnone : startsFraction ((u ++ rest).drop (run isDigit (u ++ rest))) = false := by
    obtain ⟨d, e, rfl, hd, he⟩ := exists_run isDigit u
    have hdigits : run isDigit (d ++ (e ++ rest)) = d.length :=
      run_of_stops hd (he.append (hr.mono fun c => isAlphanumeric_of_isDigit))
    rw [List.append_assoc, hdigits, List.drop_left]
    cases e with
    | nil => exact hp (by rwa [List.append_nil])
    | cons y e =>
      have hy : y ≠ '.' := by
        rintro rfl
        rw [List.all_append, List.all_cons] at hu
        simp [isAlphanumeric, isLetter, isDigit] at hu
      unfold startsFraction
      split
      · next heq => exact absurd (List.cons.inj heq).1 hy
      · next heq => exact absurd (List.cons.inj heq).1 hy
      · rfl
  unfold read
  dsimp only
  split
  · exact hint
  · next fraction hrange heq =>
    rw [heq] at hnone
    unfold startsFraction at hnone
    split at hnone
    · next heq' => exact absurd (List.cons.inj heq').2 (hrange _)
    · cases hnone
    · next hno => exact absurd rfl (hno _)
  · exact hint

/-- With a fraction, it is as long as digits follow the point, and an exponent if one is complete. -/
theorem read_of_fraction {d f rest : Text} (hd : d.all isDigit = true) (hf : f.all isDigit = true)
    (hr : Stops isDigit rest) (hp : ∀ tail, f ++ rest ≠ '.' :: tail) :
    read (d ++ '.' :: (f ++ rest)) =
      closed (d ++ '.' :: (f ++ rest)) (d.length + 1 + f.length + exponentLength rest) .real := by
  have hdigits : run isDigit (d ++ '.' :: (f ++ rest)) = d.length :=
    run_of_stops hd (stops_cons.2 rfl)
  -- The number so far is cut off in front of what may be an exponent.
  have hcut : d ++ '.' :: (f ++ rest) = (d ++ '.' :: f) ++ rest := by simp
  have hlen : d.length + 1 + f.length = (d ++ '.' :: f).length := by
    rw [List.length_append, List.length_cons]
    omega
  unfold read
  dsimp only
  rw [hdigits, List.drop_left]
  split
  · next heq => exact absurd (List.cons.inj heq).2 (hp _)
  · next fraction hrange heq =>
    rw [← (List.cons.inj heq).2, run_of_stops hf hr, hlen, hcut, List.drop_left]
  · next hno => exact absurd rfl (hno _)

/-- An exponent is measured to its end, if no letter and no digit follows it. -/
theorem exponentLength_of_isExponent {e rest : Text} (he : isExponent e = true)
    (hr : Stops isAlphanumeric rest) : exponentLength (e ++ rest) = e.length := by
  have hdigit : Stops isDigit rest := hr.mono fun c => isAlphanumeric_of_isDigit
  have digits : ∀ {ds : Text}, isDigits ds = true →
      ∃ n, run isDigit (ds ++ rest) = n + 1 ∧ ds.length = n + 1 := by
    intro ds hds
    rw [isDigits, Bool.and_eq_true] at hds
    have hne : ds ≠ [] := by simpa using hds.1
    have hpos := List.length_pos_iff.2 hne
    exact ⟨ds.length - 1, by rw [run_of_stops hds.2 hdigit]; omega, by omega⟩
  unfold isExponent at he
  split at he
  · rw [List.nil_append]
    unfold exponentLength
    split
    · exact absurd (stops_cons.1 hr) (by decide)
    · exact absurd (stops_cons.1 hr) (by decide)
    · exact absurd (stops_cons.1 hr) (by decide)
    · rfl
  · next ds =>
    obtain ⟨n, hrun, hlen⟩ := digits he
    simp only [List.cons_append, exponentLength, hrun, exponentLength.signed, List.length_cons,
      hlen]
  · next ds =>
    obtain ⟨n, hrun, hlen⟩ := digits he
    simp only [List.cons_append, exponentLength, hrun, exponentLength.signed, List.length_cons,
      hlen]
  · next ds hplus hminus =>
    -- no sign stands before the digits
    have hsign : ∀ {c : Char} {tail : Text}, isDigit c = false → ds ++ rest ≠ c :: tail := by
      intro c tail hc heq
      rw [isDigits, Bool.and_eq_true] at he
      -- with a sign or without one
      cases ds with
      | nil => cases he.1
      | cons d ds =>
        rw [← (List.cons.inj heq).1] at hc
        rw [List.all_cons, hc] at he
        cases he.2
    obtain ⟨n, hrun, hlen⟩ := digits he
    rw [List.cons_append]
    unfold exponentLength
    split
    · next heq => exact absurd (List.cons.inj heq).2 (hsign (by decide))
    · next heq => exact absurd (List.cons.inj heq).2 (hsign (by decide))
    · next heq =>
      rw [← (List.cons.inj heq).2, hrun, List.length_cons, hlen]
      rfl
    · next hno => exact absurd rfl (hno _)
  · cases he

/-- A text in the form of a real is read as one, and as nothing more. -/
theorem read_of_isReal {t rest : Text} (ht : isReal t = true) (hr : Stops isAlphanumeric rest)
    (hp : ∀ tail, rest ≠ '.' :: tail) : read (t ++ rest) = (.real, t.length) := by
  obtain ⟨d, tail, rfl, hd, htail⟩ := exists_run isDigit t
  rw [isReal, takeWhile_of_stops hd htail] at ht
  rw [List.drop_left, Bool.and_eq_true] at ht
  obtain ⟨-, ht⟩ := ht
  split at ht
  · next fe =>
    obtain ⟨f, e, rfl, hf, he⟩ := exists_run isDigit fe
    rw [dropWhile_of_stops hf he] at ht
    have hstop : Stops isDigit (e ++ rest) :=
      he.append (hr.mono fun c => isAlphanumeric_of_isDigit)
    -- two points would belong to a range
    have hpoint : ∀ tail, f ++ (e ++ rest) ≠ '.' :: tail := by
      intro tail heq
      cases f with
      | cons y f =>
        rw [(List.cons.inj heq).1] at hf
        cases hf
      | nil =>
        cases e with
        | nil => exact hp tail heq
        | cons y e =>
          -- an exponent begins with its letter
          have hy : y = '.' := (List.cons.inj heq).1
          rw [hy] at ht
          cases ht
    have hcut : d ++ '.' :: (f ++ e) ++ rest = d ++ '.' :: (f ++ (e ++ rest)) := by simp
    have hlen : d.length + 1 + f.length + e.length = (d ++ '.' :: (f ++ e)).length := by
      simp only [List.length_append, List.length_cons]
      omega
    rw [hcut, read_of_fraction hd hf hstop hpoint, exponentLength_of_isExponent ht hr, hlen,
      ← hcut, closed_of_stops hr]
  · cases ht

/-! ## How far a number reaches

  A number takes its first digit at least, and never more than there is. -/

/-- A run is not longer than the text. -/
theorem run_le_length (p : Char → Bool) (cs : Text) : run p cs ≤ cs.length :=
  (List.takeWhile_sublist p).length_le

/-- Nor is an exponent. -/
theorem exponentLength_le_length (cs : Text) : exponentLength cs ≤ cs.length := by
  -- A sign counts only if digits follow it.
  have signed : ∀ n : Nat, exponentLength.signed n ≤ n + 2 := by
    intro n
    cases n <;> simp [exponentLength.signed]
  have unsigned : ∀ n : Nat, exponentLength.unsigned n ≤ n + 1 := by
    intro n
    cases n <;> simp [exponentLength.unsigned]
  unfold exponentLength
  split
  · next cs =>
    have h := run_le_length isDigit cs
    have h' := signed (run isDigit cs)
    simp only [List.length_cons]
    omega
  · next cs =>
    have h := run_le_length isDigit cs
    have h' := signed (run isDigit cs)
    simp only [List.length_cons]
    omega
  · next cs _ _ =>
    have h := run_le_length isDigit cs
    have h' := unsigned (run isDigit cs)
    simp only [List.length_cons]
    omega
  · exact Nat.zero_le _

/-- What a number runs into may lengthen it, but only up to the end of the text, and may spoil it. -/
theorem closed_reach {cs : Text} {n : Nat} (shape : Shape) (h : n ≤ cs.length) :
    n ≤ (closed cs n shape).2 ∧ (closed cs n shape).2 ≤ cs.length ∧
      ((closed cs n shape).1 = shape ∨ (closed cs n shape).1 = .malformed) := by
  have hrun := run_le_length isAlphanumeric (cs.drop n)
  rw [List.length_drop] at hrun
  unfold closed
  split
  · exact ⟨Nat.le_refl n, h, Or.inl rfl⟩
  · next extra heq =>
    rw [heq] at hrun
    exact ⟨by simp only; omega, by simp only; omega, Or.inr rfl⟩

/-- A fraction begins with a period, but not with two of them. -/
theorem eq_of_startsFraction {rest : Text} (h : startsFraction rest = true) :
    ∃ fraction, rest = '.' :: fraction ∧ ∀ tail, fraction ≠ '.' :: tail := by
  unfold startsFraction at h
  split at h
  · cases h
  · next fraction hrange => exact ⟨fraction, rfl, fun tail heq => hrange tail (by rw [heq])⟩
  · cases h

/-- A number takes its first digit and stays inside the text; an integer takes a run of its form. -/
theorem read_reach {c : Char} (cs : Text) (hc : isDigit c = true) :
    0 < (read (c :: cs)).2 ∧ (read (c :: cs)).2 ≤ (c :: cs).length ∧
      ∀ radix, (read (c :: cs)).1 = .integer radix →
        shapeOf ((c :: cs).take (read (c :: cs)).2) = .integer radix := by
  obtain ⟨u, rest, hcut, hu, hr⟩ := exists_run isAlphanumeric (c :: cs)
  cases u with
  | nil =>
    -- the first digit belongs to the run
    rw [List.nil_append] at hcut
    rw [← hcut] at hr
    exact absurd (isAlphanumeric_of_isDigit hc) (by rw [stops_cons.1 hr]; exact Bool.false_ne_true)
  | cons d u =>
    have hd : isDigit d = true := (List.cons.inj hcut).1 ▸ hc
    have hfirst : ∀ y, (d :: u).head? = some y → isDigit y = true := by
      intro y hy
      rw [← Option.some.inj hy]
      exact hd
    rw [hcut]
    by_cases hp : (d :: u).all isDigit = true → startsFraction rest = false
    · rw [read_of_run hfirst hu hr hp]
      refine ⟨Nat.succ_pos _, by simp only [List.length_append]; omega, fun radix hradix => ?_⟩
      rw [List.take_left]
      exact hradix
    · have hdigits : (d :: u).all isDigit = true := by
        cases h : (d :: u).all isDigit with
        | true => rfl
        | false => exact absurd (fun h' => by rw [h] at h'; cases h') hp
      have hpoint : startsFraction rest = true := by
        cases h : startsFraction rest with
        | true => rfl
        | false => exact absurd (fun _ => h) hp
      obtain ⟨fraction, rfl, hrange⟩ := eq_of_startsFraction hpoint
      obtain ⟨f, tail, rfl, hf, htail⟩ := exists_run isDigit fraction
      rw [read_of_fraction hdigits hf htail hrange]
      have hlen : (d :: u).length + 1 + f.length + exponentLength tail ≤
          (d :: u ++ '.' :: (f ++ tail)).length := by
        have := exponentLength_le_length tail
        simp only [List.length_append, List.length_cons]
        omega
      obtain ⟨hle, hend, hshape⟩ := closed_reach .real hlen
      have hpos : 0 < (d :: u).length := Nat.succ_pos _
      refine ⟨by omega, hend, fun radix hradix => ?_⟩
      rw [hradix] at hshape
      rcases hshape with h | h <;> cases h

end Modula.Number

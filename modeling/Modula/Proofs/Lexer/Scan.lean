import Mathlib.Data.UInt
import Modula.Proofs.Lexer.Blanking
/-!
# A number is a few longest fronts

  The scanner of numbers goes over bytes, `Number.read` goes over characters.  Here it is run on any
  string of bytes, each byte taken for a character of its own (`scan`), and what it answers is told by
  the grammar alone (`scan_meetsGrammar`).  With `d` the longest front of digits:

      d . f e      a point stands behind `d` that is not the first of two: a real, where `f` is the
                   longest front of digits behind it and `e` the longest complete exponent behind `f`,
                   unless letters and digits follow
      u            otherwise: the longest front of letters and digits, with its shape

  Every part is the longest front of its form (`IsLongest`), and a front of any of these forms is ASCII.
  So it is one of the characters just as well as one of their bytes (`IsLongest.bytewise`), and the two
  ways of reading agree on every source (`scan_bytes`).
-/

namespace Modula

/-! ## Longest fronts

  What a scanner takes is the longest front of a form.  For classes of characters this is where the class
  ends. -/

/-- The front of the text passes, and no longer one does. -/
structure IsLongest (p : Text → Bool) (text front : Text) : Prop where
  isFront : front <+: text
  passes : p front = true
  longest : ∀ other, other <+: text → p other = true → other.length ≤ front.length

/-- The longest front in a class of characters ends where the class does. -/
theorem isLongest_all_iff {p : Char → Bool} {u rest : Text} :
    IsLongest (List.all · p) (u ++ rest) u ↔ u.all p = true ∧ Stops p rest := by
  constructor
  · intro h
    refine ⟨h.passes, fun c hc => ?_⟩
    obtain ⟨tail, rfl⟩ := List.head?_eq_some_iff.1 hc
    -- if the character were in the class, the front could be longer
    cases hp : p c with
    | false => rfl
    | true =>
      have hfront : u ++ [c] <+: u ++ c :: tail := ⟨tail, by simp⟩
      have hall : (u ++ [c]).all p = true := by
        rw [List.all_append, h.passes, List.all_cons, hp]
        rfl
      have hle := h.longest _ hfront hall
      rw [List.length_append, List.length_singleton] at hle
      omega
  · rintro ⟨hu, hr⟩
    refine ⟨List.prefix_append u rest, hu, fun other hfront hall => ?_⟩
    obtain ⟨tail, htail⟩ := hfront
    have hrun : other.length ≤ Number.run p (other ++ tail) := by
      rw [Number.run, List.takeWhile_append_of_pos fun c hc => List.all_eq_true.1 hall c hc,
        List.length_append]
      exact Nat.le_add_right _ _
    rwa [htail, run_of_stops hu hr] at hrun

theorem exists_isLongest_all (p : Char → Bool) (text : Text) :
    ∃ u rest, text = u ++ rest ∧ IsLongest (List.all · p) (u ++ rest) u := by
  obtain ⟨u, rest, rfl, hu, hr⟩ := exists_run p text
  exact ⟨u, rest, rfl, isLongest_all_iff.2 ⟨hu, hr⟩⟩

/-! ## Characters and bytes

  The text of a number is ASCII.  The bytes of other characters are taken for characters here that are in
  no number, so that scanning stops at them as well. -/

/-- Each byte taken for a character of its own. -/
def Text.ofBytes (bytes : List UInt8) : Text := bytes.map UInt8.toChar

/-- The bytes of a text, each taken for a character of its own. -/
def Text.bytewise (text : Text) : Text := ofBytes text.bytes

/-- All characters of the text take one byte. -/
def Text.IsAscii (text : Text) : Prop := ∀ c ∈ text, c.toNat < 128

namespace Text

theorem bytewise_cons (c : Char) (cs : Text) :
    bytewise (c :: cs) = ofBytes (String.utf8EncodeChar c) ++ bytewise cs := by
  rw [bytewise, bytes, List.flatMap_cons, ofBytes, List.map_append]
  rfl

theorem ofBytes_of_ascii {c : Char} (h : c.toNat < 128) :
    ofBytes (String.utf8EncodeChar c) = [c] := by
  have hle : c.val.toNat ≤ 127 := Nat.le_of_lt_succ h
  have hchar : (UInt8.ofNat c.val.toNat).toChar = c := by
    refine Char.ext (UInt32.toNat_inj.1 ?_)
    show (UInt8.ofNat c.val.toNat).toNat = c.val.toNat
    rw [UInt8.toNat_ofNat']
    omega
  rw [String.utf8EncodeChar, if_pos hle, ofBytes, List.map_singleton, hchar]

/-- The first byte of a longer character is not ASCII. -/
theorem ofBytes_of_not_ascii {c : Char} (h : ¬ c.toNat < 128) :
    ∃ d ds, ofBytes (String.utf8EncodeChar c) = d :: ds ∧ ¬ d.toNat < 128 := by
  have hval : 127 < c.val.toNat := Nat.lt_of_not_le fun hle => h (Nat.lt_succ_of_le hle)
  have htoNat : ∀ n : Nat, (UInt8.ofNat n).toChar.toNat = n % 2 ^ 8 := fun n => UInt8.toNat_ofNat'
  unfold String.utf8EncodeChar
  dsimp only
  -- With two, three or four bytes the first one always has its highest bit set.
  split_ifs
  · omega
  · refine ⟨_, _, rfl, ?_⟩
    rw [htoNat]
    omega
  · refine ⟨_, _, rfl, ?_⟩
    rw [htoNat]
    omega
  · refine ⟨_, _, rfl, ?_⟩
    rw [htoNat]
    omega

theorem bytewise_append {u : Text} (hu : u.IsAscii) (rest : Text) :
    bytewise (u ++ rest) = u ++ bytewise rest := by
  induction u with
  | nil => rfl
  | cons c u ih =>
    have hc : c.toNat < 128 := hu c List.mem_cons_self
    have hu' : IsAscii u := fun d hd => hu d (List.mem_cons_of_mem c hd)
    rw [List.cons_append, bytewise_cons, ofBytes_of_ascii hc, ih hu']
    rfl

/-- An ASCII front of the bytes is one of the text. -/
theorem prefix_of_prefix_bytewise {u : Text} (hu : u.IsAscii) {text : Text}
    (h : u <+: bytewise text) : u <+: text := by
  induction u generalizing text with
  | nil => exact List.nil_prefix
  | cons d u ih =>
    have hu' : IsAscii u := fun d' hd' => hu d' (List.mem_cons_of_mem d hd')
    cases text with
    | nil => exact absurd (List.prefix_nil.1 h) (List.cons_ne_nil d u)
    | cons c cs =>
      rw [bytewise_cons] at h
      -- A character that is not ASCII begins with a byte that is in no ASCII text.
      by_cases hc : c.toNat < 128
      · rw [ofBytes_of_ascii hc, List.singleton_append, List.cons_prefix_cons] at h
        exact List.cons_prefix_cons.2 ⟨h.1, ih hu' h.2⟩
      · obtain ⟨b, bs, hbytes, hb⟩ := ofBytes_of_not_ascii hc
        rw [hbytes, List.cons_append, List.cons_prefix_cons] at h
        exact absurd (hu d List.mem_cons_self) (h.1 ▸ hb)

end Text

/-- The longest front of an ASCII form is the same in characters and in bytes. -/
theorem IsLongest.bytewise {p : Text → Bool} {u rest : Text}
    (hp : ∀ v : Text, p v = true → v.IsAscii) (h : IsLongest p (u ++ rest) u) :
    IsLongest p (u ++ rest.bytewise) u := by
  have hu : u.IsAscii := hp u h.passes
  refine ⟨List.prefix_append u _, h.passes, fun other hfront hother => ?_⟩
  rw [← Text.bytewise_append hu] at hfront
  exact h.longest other (Text.prefix_of_prefix_bytewise (hp other hother) hfront) hother

namespace Number

theorem toNat_lt_of_isDigit {c : Char} (h : isDigit c = true) : c.toNat < 128 := by
  rw [isDigit, Bool.and_eq_true, decide_eq_true_eq, decide_eq_true_eq] at h
  exact Nat.lt_of_le_of_lt h.2 (by decide)

theorem toNat_lt_of_isAlphanumeric {c : Char} (h : isAlphanumeric c = true) : c.toNat < 128 := by
  simp only [isAlphanumeric, isLetter, Bool.or_eq_true, Bool.and_eq_true, decide_eq_true_eq] at h
  rcases h with (h | h) | h
  · exact Nat.lt_of_le_of_lt h.2 (by decide)
  · exact Nat.lt_of_le_of_lt h.2 (by decide)
  · exact toNat_lt_of_isDigit h

theorem isAscii_of_digits (u : Text) (hu : u.all isDigit = true) : u.IsAscii :=
  fun c hc => toNat_lt_of_isDigit (List.all_eq_true.1 hu c hc)

theorem isAscii_of_alphanumerics (u : Text) (hu : u.all isAlphanumeric = true) : u.IsAscii :=
  fun c hc => toNat_lt_of_isAlphanumeric (List.all_eq_true.1 hu c hc)

theorem isAscii_of_isExponent (e : Text) (he : isExponent e = true) : e.IsAscii := by
  have digits : ∀ {ds : Text}, isDigits ds = true → ∀ c ∈ ds, c.toNat < 128 := by
    intro ds hds
    rw [isDigits, Bool.and_eq_true] at hds
    exact isAscii_of_digits ds hds.2
  unfold isExponent at he
  split at he
  · exact List.forall_mem_nil _
  · exact List.forall_mem_cons.2 ⟨by decide, List.forall_mem_cons.2 ⟨by decide, digits he⟩⟩
  · exact List.forall_mem_cons.2 ⟨by decide, List.forall_mem_cons.2 ⟨by decide, digits he⟩⟩
  · exact List.forall_mem_cons.2 ⟨by decide, digits he⟩
  · cases he

theorem exponentLength_of_digit {d : Char} {cs : Text} (hd : isDigit d = true) :
    exponentLength ('E' :: d :: cs) = exponentLength.unsigned (run isDigit (d :: cs)) := by
  unfold exponentLength
  split
  · next heq =>
    rw [(List.cons.inj (List.cons.inj heq).2).1] at hd
    cases hd
  · next heq =>
    rw [(List.cons.inj (List.cons.inj heq).2).1] at hd
    cases hd
  · next heq => rw [(List.cons.inj heq).2]
  · next hno => exact absurd rfl (hno _)

/-- What is taken for an exponent is the longest one that is complete. -/
theorem isLongest_exponent (e rest : Text) (h : exponentLength (e ++ rest) = e.length) :
    IsLongest isExponent (e ++ rest) e := by
  have htake : isExponent e = true := by
    have h' := isExponent_take (e ++ rest)
    rwa [h, List.take_left] at h'
  refine ⟨List.prefix_append e rest, htake, ?_⟩
  rintro other ⟨tail, htail⟩ hother
  rw [← h, ← htail]
  -- the digits of the other exponent are some of those that are counted
  have digits : ∀ {ds : Text}, isDigits ds = true →
      ∃ n, run isDigit (ds ++ tail) = n + 1 ∧ ds.length ≤ n + 1 := by
    intro ds hds
    rw [isDigits, Bool.and_eq_true] at hds
    have hne : 0 < ds.length := List.length_pos_iff.2 (by simpa using hds.1)
    have hrun : ds.length ≤ run isDigit (ds ++ tail) := by
      rw [run, List.takeWhile_append_of_pos fun c hc => List.all_eq_true.1 hds.2 c hc,
        List.length_append]
      exact Nat.le_add_right _ _
    exact ⟨run isDigit (ds ++ tail) - 1, by omega, by omega⟩
  unfold isExponent at hother
  split at hother
  · exact Nat.zero_le _
  · obtain ⟨n, hrun, hlen⟩ := digits hother
    simp only [List.cons_append, exponentLength, hrun, exponentLength.signed, List.length_cons]
    omega
  · obtain ⟨n, hrun, hlen⟩ := digits hother
    simp only [List.cons_append, exponentLength, hrun, exponentLength.signed, List.length_cons]
    omega
  · next ds _ _ =>
    obtain ⟨n, hrun, hlen⟩ := digits hother
    cases ds with
    | nil => cases hother
    | cons d ds =>
      have hd : isDigit d = true := by
        rw [isDigits, Bool.and_eq_true, List.all_cons, Bool.and_eq_true] at hother
        exact hother.2.1
      rw [List.cons_append] at hrun
      rw [List.cons_append, List.cons_append, exponentLength_of_digit hd, hrun, List.length_cons]
      exact Nat.succ_le_succ hlen
  · cases hother

theorem exponentLength_of_isLongest {e rest : Text} (h : IsLongest isExponent (e ++ rest) e) :
    exponentLength (e ++ rest) = e.length := by
  obtain ⟨e', rest', hcut, he', hlen⟩ := exists_exponent (e ++ rest)
  rw [hcut] at h hlen ⊢
  have h' := isLongest_exponent e' rest' hlen
  rw [hlen]
  exact Nat.le_antisymm (h.longest e' h'.isFront he') (h'.longest e h.isFront h.passes)

/-! ## The parts of a real

  Each part is the longest one at its place.  What follows decides whether it is a real after all. -/

/-- A text is cut into the digits `d`, a point, the fraction `f` and the exponent `e` of a real, the
letters and digits `a` that follow, and the rest. -/
structure IsRealCut (d f e a rest : Text) : Prop where
  digits : d.all isDigit = true
  alone : (f ++ (e ++ (a ++ rest))).head? ≠ some '.'
  fraction : IsLongest (List.all · isDigit) (f ++ (e ++ (a ++ rest))) f
  exponent : IsLongest isExponent (e ++ (a ++ rest)) e
  behind : IsLongest (List.all · isAlphanumeric) (a ++ rest) a

/-- Digits with a point behind them that is not the first of two are cut in this way. -/
theorem exists_realCut {d tail : Text} (hd : d.all isDigit = true)
    (hp : startsFraction tail = true) :
    ∃ f e a rest, tail = '.' :: (f ++ (e ++ (a ++ rest))) ∧ IsRealCut d f e a rest := by
  obtain ⟨fraction, rfl, hrange⟩ := eq_of_startsFraction hp
  obtain ⟨f, tail, rfl, hf⟩ := exists_isLongest_all isDigit fraction
  obtain ⟨e, tail, rfl, -, he⟩ := exists_exponent tail
  obtain ⟨a, rest, rfl, ha⟩ := exists_isLongest_all isAlphanumeric tail
  refine ⟨f, e, a, rest, rfl, hd, fun hhead => ?_, hf, isLongest_exponent e _ he, ha⟩
  obtain ⟨tail, htail⟩ := List.head?_eq_some_iff.1 hhead
  exact hrange tail htail

/-- All parts of a real are ASCII. -/
theorem IsRealCut.isAscii {d f e a rest : Text} (h : IsRealCut d f e a rest) :
    d.IsAscii ∧ f.IsAscii ∧ e.IsAscii ∧ a.IsAscii :=
  ⟨isAscii_of_digits d h.digits, isAscii_of_digits f h.fraction.passes,
    isAscii_of_isExponent e h.exponent.passes, isAscii_of_alphanumerics a h.behind.passes⟩

/-- What stands behind the parts of a real may be told in characters or in bytes. -/
theorem IsRealCut.bytewise {d f e a rest : Text} (h : IsRealCut d f e a rest) :
    IsRealCut d f e a rest.bytewise := by
  obtain ⟨-, hf, he, ha⟩ := h.isAscii
  have hbehind : Text.bytewise (a ++ rest) = a ++ rest.bytewise := Text.bytewise_append ha rest
  have hexponent : Text.bytewise (e ++ (a ++ rest)) = e ++ (a ++ rest.bytewise) := by
    rw [Text.bytewise_append he, hbehind]
  refine ⟨h.digits, fun hhead => ?_, ?_, ?_, ?_⟩
  · -- a point is ASCII, so it would be one in the text as well
    rw [← hexponent, ← Text.bytewise_append hf] at hhead
    obtain ⟨tail, htail⟩ := List.head?_eq_some_iff.1 hhead
    have hpoint : Text.IsAscii ['.'] := List.forall_mem_singleton.2 (by decide)
    obtain ⟨tail', htail'⟩ := Text.prefix_of_prefix_bytewise hpoint ⟨tail, htail.symm⟩
    exact h.alone (List.head?_eq_some_iff.2 ⟨tail', htail'.symm⟩)
  · rw [← hexponent]
    exact h.fraction.bytewise isAscii_of_digits
  · rw [← hbehind]
    exact h.exponent.bytewise isAscii_of_isExponent
  · exact h.behind.bytewise isAscii_of_alphanumerics

theorem closed_eq_ite {r a rest : Text} {shape : Shape}
    (ha : IsLongest (List.all · isAlphanumeric) (a ++ rest) a) :
    closed (r ++ (a ++ rest)) r.length shape =
      if a = [] then (shape, r.length) else (.malformed, r.length + a.length) := by
  obtain ⟨hall, hr⟩ := isLongest_all_iff.1 ha
  by_cases hne : a = []
  · rw [if_pos hne, hne, List.nil_append, closed_of_stops hr]
  · rw [if_neg hne, closed_of_run hall hne hr]

/-- A real is its three parts, unless it runs into letters and digits. -/
theorem IsRealCut.read_eq {d f e a rest : Text} (h : IsRealCut d f e a rest) :
    read (d ++ '.' :: (f ++ (e ++ (a ++ rest)))) =
      if a = [] then (.real, (d ++ '.' :: (f ++ e)).length)
      else (.malformed, (d ++ '.' :: (f ++ e)).length + a.length) := by
  obtain ⟨hf, hstop⟩ := isLongest_all_iff.1 h.fraction
  have hp : ∀ tail, f ++ (e ++ (a ++ rest)) ≠ '.' :: tail :=
    fun tail htail => h.alone (List.head?_eq_some_iff.2 ⟨tail, htail⟩)
  have hlen : d.length + 1 + f.length + e.length = (d ++ '.' :: (f ++ e)).length := by
    simp only [List.length_append, List.length_cons]
    omega
  -- The number ends behind its exponent, and what follows it spoils it or not.
  have hcut : d ++ '.' :: (f ++ (e ++ (a ++ rest))) = (d ++ '.' :: (f ++ e)) ++ (a ++ rest) := by
    simp
  rw [read_of_fraction h.digits hf hstop hp, exponentLength_of_isLongest h.exponent, hlen, hcut,
    closed_eq_ite h.behind]

/-! ## Scanning

  Whether a point begins a fraction is seen from the character behind it, and from this the two cases
  follow. -/

/-- The number in front of a string of bytes. -/
def scan (bytes : List UInt8) : Shape × Nat := read (Text.ofBytes bytes)

theorem startsFraction_iff {tail : Text} :
    startsFraction tail = true ↔ tail[0]? = some '.' ∧ tail[1]? ≠ some '.' := by
  constructor
  · intro h
    obtain ⟨fraction, rfl, hrange⟩ := eq_of_startsFraction h
    refine ⟨rfl, fun hsecond => ?_⟩
    cases fraction with
    | nil => cases hsecond
    | cons c cs => exact hrange cs (congrArg (· :: cs) (Option.some.inj hsecond))
  · rintro ⟨hfirst, hsecond⟩
    cases tail with
    | nil => cases hfirst
    | cons c cs =>
      rw [List.getElem?_cons_zero, Option.some.injEq] at hfirst
      rw [hfirst] at hsecond ⊢
      -- Two points are a range, one is the beginning of a fraction.
      unfold startsFraction
      split
      · next heq =>
        rw [(List.cons.inj heq).2] at hsecond
        exact absurd rfl hsecond
      · rfl
      · next hno => exact absurd rfl (hno _)

/-- A point that begins a fraction in the bytes begins one in the characters. -/
theorem startsFraction_of_bytewise {tail : Text} (h : startsFraction tail.bytewise = true) :
    startsFraction tail = true := by
  obtain ⟨fraction, hfraction, hrange⟩ := eq_of_startsFraction h
  have hpoint : Text.IsAscii ['.'] := List.forall_mem_singleton.2 (by decide)
  obtain ⟨rest, rfl⟩ := Text.prefix_of_prefix_bytewise hpoint ⟨fraction, hfraction.symm⟩
  rw [Text.bytewise_append hpoint] at hfraction
  refine startsFraction_iff.2 ⟨rfl, fun hsecond => ?_⟩
  -- a second point would be one in the bytes as well
  obtain ⟨more, rfl⟩ : ∃ more, rest = ['.'] ++ more := by
    cases rest with
    | nil => cases hsecond
    | cons c cs => exact ⟨cs, congrArg (· :: cs) (Option.some.inj hsecond)⟩
  rw [Text.bytewise_append hpoint] at hfraction
  exact hrange _ (List.cons.inj hfraction).2.symm

/-- Without a fraction, a number is the longest front of letters and digits. -/
theorem read_of_isLongest {d tail u rest : Text} (hcut : d ++ tail = u ++ rest)
    (hd : IsLongest (List.all · isDigit) (d ++ tail) d) (hne : d ≠ [])
    (hu : IsLongest (List.all · isAlphanumeric) (u ++ rest) u)
    (hp : startsFraction tail = false) : read (u ++ rest) = (shapeOf u, u.length) := by
  obtain ⟨hdigits, htail⟩ := isLongest_all_iff.1 hd
  obtain ⟨hall, hrest⟩ := isLongest_all_iff.1 hu
  have hfirst : ∀ c, u.head? = some c → isDigit c = true := by
    intro c hc
    obtain ⟨cs, rfl⟩ := List.head?_eq_some_iff.1 hc
    obtain ⟨c', d, rfl⟩ := List.exists_cons_of_ne_nil hne
    rw [← (List.cons.inj hcut).1]
    exact List.all_eq_true.1 hdigits c' List.mem_cons_self
  refine read_of_run hfirst hall hrest fun hsame => ?_
  -- if all of the front are digits, it is the front of digits
  have hdu : d = u := by
    rw [← takeWhile_of_stops hdigits htail, hcut,
      takeWhile_of_stops hsame (hrest.mono fun c => isAlphanumeric_of_isDigit)]
  rw [hdu] at hcut
  rwa [← List.append_cancel_left hcut]

/-- Whether a number is scanned in the bytes or read in the characters makes no difference. -/
theorem scan_bytes {c : Char} {cs : Text} (hc : isDigit c = true) :
    scan (Text.bytes (c :: cs)) = read (c :: cs) := by
  -- The digits are the same in both texts; what is behind them decides.
  obtain ⟨d, tail, hcs, hd⟩ := exists_isLongest_all isDigit (c :: cs)
  have hdigits : d.IsAscii := isAscii_of_digits d hd.passes
  rw [hcs]
  show read (Text.bytewise (d ++ tail)) = read (d ++ tail)
  cases hp : startsFraction tail with
  | true =>
    obtain ⟨f, e, a, rest, rfl, hreal⟩ := exists_realCut hd.passes hp
    -- The whole number is ASCII, so its bytes are its characters.
    have hascii : Text.IsAscii (d ++ '.' :: (f ++ (e ++ a))) := by
      obtain ⟨-, hf, he, ha⟩ := hreal.isAscii
      simp only [Text.IsAscii, List.forall_mem_append, List.forall_mem_cons]
      exact ⟨hdigits, by decide, hf, he, ha⟩
    have hparts : ∀ r : Text,
        d ++ '.' :: (f ++ (e ++ (a ++ r))) = (d ++ '.' :: (f ++ (e ++ a))) ++ r := by
      intro r
      simp
    rw [hparts, Text.bytewise_append hascii, ← hparts, ← hparts, hreal.bytewise.read_eq,
      hreal.read_eq]
  | false =>
    obtain ⟨u, rest, hcut, hu⟩ := exists_isLongest_all isAlphanumeric (d ++ tail)
    have hne : d ≠ [] := by
      rintro rfl
      rw [List.nil_append] at hcs
      rw [← hcs] at hd
      have hstop := (isLongest_all_iff.1 hd).2
      rw [stops_cons.1 hstop] at hc
      cases hc
    -- Without a fraction the run of letters and digits is the number, and this run is ASCII too.
    have hcut' : d ++ tail.bytewise = u ++ rest.bytewise := by
      rw [← Text.bytewise_append hdigits, hcut,
        Text.bytewise_append (isAscii_of_alphanumerics u hu.passes)]
    have hp' : startsFraction tail.bytewise = false := by
      rw [← Bool.not_eq_true]
      intro hpoint
      rw [startsFraction_of_bytewise hpoint] at hp
      cases hp
    rw [Text.bytewise_append hdigits, hcut',
      read_of_isLongest hcut' (hd.bytewise isAscii_of_digits) hne
        (hu.bytewise isAscii_of_alphanumerics) hp',
      hcut, read_of_isLongest hcut hd hne hu hp]

/-- Number scanning meets its grammar. -/
theorem scan_meetsGrammar {bytes : List UInt8} {d : Text}
    (hd : IsLongest (List.all · isDigit) (Text.ofBytes bytes) d) (hfirst : d ≠ []) :
    (∀ text : Text, text.bytes = bytes → read text = scan bytes) ∧
      if (Text.ofBytes bytes)[d.length]? = some '.' ∧
          (Text.ofBytes bytes)[d.length + 1]? ≠ some '.' then
        ∃ f e a rest, Text.ofBytes bytes = d ++ '.' :: (f ++ (e ++ (a ++ rest))) ∧
          IsRealCut d f e a rest ∧
          scan bytes =
            if a = [] then (.real, (d ++ '.' :: (f ++ e)).length)
            else (.malformed, (d ++ '.' :: (f ++ e)).length + a.length)
      else
        ∃ u, IsLongest (List.all · isAlphanumeric) (Text.ofBytes bytes) u ∧
          scan bytes = (shapeOf u, u.length) := by
  constructor
  -- A text is read as its bytes are.
  · rintro text rfl
    obtain ⟨c, d, rfl⟩ := List.exists_cons_of_ne_nil hfirst
    have hascii : Text.IsAscii (c :: d) := isAscii_of_digits _ hd.passes
    obtain ⟨tail, rfl⟩ := Text.prefix_of_prefix_bytewise hascii hd.isFront
    have hc : isDigit c = true := List.all_eq_true.1 hd.passes c List.mem_cons_self
    exact (scan_bytes hc).symm
  · rw [scan]
    obtain ⟨tail, htail⟩ := hd.isFront
    rw [← htail] at hd ⊢
    rw [List.getElem?_append_right (Nat.le_refl _), List.getElem?_append_right (Nat.le_add_right _ _),
      Nat.sub_self, Nat.add_sub_cancel_left]
    split_ifs with hp
    · obtain ⟨f, e, a, rest, rfl, hreal⟩ := exists_realCut hd.passes (startsFraction_iff.2 hp)
      exact ⟨f, e, a, rest, rfl, hreal, hreal.read_eq⟩
    · have hnone : startsFraction tail = false := by
        rw [← Bool.not_eq_true]
        exact fun hpoint => hp (startsFraction_iff.1 hpoint)
      obtain ⟨u, rest, hcut, hu⟩ := exists_isLongest_all isAlphanumeric (d ++ tail)
      rw [hcut]
      exact ⟨u, hu, read_of_isLongest hcut hd hfirst hu hnone⟩

/-- The bytes of `1.5E+`: the exponent is not complete, so that the real `1.5` runs into a letter. -/
theorem scan_meetsGrammar_incompleteExponent :
    IsLongest (List.all · isDigit) (Text.ofBytes [49, 46, 53, 69, 43]) ['1'] ∧
      (∃ f e a rest, Text.ofBytes [49, 46, 53, 69, 43] = ['1'] ++ '.' :: (f ++ (e ++ (a ++ rest))) ∧
        IsRealCut ['1'] f e a rest ∧
        scan [49, 46, 53, 69, 43] =
          if a = [] then (.real, (['1'] ++ '.' :: (f ++ e)).length)
          else (.malformed, (['1'] ++ '.' :: (f ++ e)).length + a.length)) ∧
      scan [49, 46, 53, 69, 43] = (.malformed, 4) := by
  have hd : IsLongest (List.all · isDigit) (Text.ofBytes [49, 46, 53, 69, 43]) ['1'] := by
    show IsLongest _ (['1'] ++ ['.', '5', 'E', '+']) ['1']
    exact isLongest_all_iff.2 ⟨rfl, stops_cons.2 rfl⟩
  have h := (scan_meetsGrammar hd (List.cons_ne_nil '1' [])).2
  rw [if_pos (by decide)] at h
  exact ⟨hd, h, by decide⟩

end Number

end Modula

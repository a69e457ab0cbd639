import Mathlib.Data.Nat.Digits.Defs
import Mathlib.Tactic.Ring
import Modula.Proofs.Lexeme.Local
import Modula.Proofs.Lexer.Stream
/-!
# Integers decode to their positional value

  The digits of an integer token are digits of the base that belongs to its form, and there is at least
  one of them.  So its value is the positional value of the digits as long as this is below 2⁶⁴, and no
  value is refused for any other reason (`integer_decodes`).

      text     digits    base    value
      017      017       10      17
      017B     017        8      15
      017C     017        8      15
      017H     017       16      23
      017D     017       16      23

  The value is accumulated from the left, the positional value is a sum of powers of the base; the two
  meet in `positionalValue?_eq`.  That the digits are what they should be is settled where the form of a
  number is read off its last letter (`isWellFormed_of_number`), and every token that a lexer hands out,
  in whatever way it is asked, has been read there (`HandedOut.stands`).
-/

namespace Modula

/-! ## Values -/

/-- What a digit counts; the capitals `A` to `F` count 10 to 15. -/
def digitWeight (c : Char) : Nat :=
  if Number.isDigit c then c.toNat - '0'.toNat else c.toNat - 'A'.toNat + 10

/-- The positional value of the digits, in base 10, 8 or 16. -/
def IntLiteral.magnitude (n : IntLiteral) : Nat :=
  let base := match n.radix with
    | .decimal => 10
    | .octal | .char => 8
    | .hex | .double => 16
  Nat.ofDigits base (n.digits.toList.reverse.map digitWeight)

theorem isDigit_iff {c : Char} : Number.isDigit c = true ↔ '0' ≤ c ∧ c ≤ '9' := by
  rw [Number.isDigit, Bool.and_eq_true, decide_eq_true_eq, decide_eq_true_eq]

theorem digitValue?_of_isDigit {base : Nat} {c : Char} (hc : Number.isDigit c = true)
    (hlt : c.toNat - '0'.toNat < base) : digitValue? base c = some (digitWeight c) := by
  simp only [digitValue?, digitWeight, if_pos hc, if_pos (isDigit_iff.1 hc), if_pos hlt]

theorem digitValue?_decimal {c : Char} (hc : Number.isDigit c = true) :
    digitValue? 10 c = some (digitWeight c) := by
  have hle : c.toNat ≤ '9'.toNat := (isDigit_iff.1 hc).2
  exact digitValue?_of_isDigit hc (Nat.lt_of_le_of_lt (Nat.sub_le_sub_right hle _) (by decide))

theorem digitValue?_octal {c : Char} (hc : Number.isOctalDigit c = true) :
    digitValue? 8 c = some (digitWeight c) := by
  have hle : c.toNat ≤ '7'.toNat := by
    rw [Number.isOctalDigit, Bool.and_eq_true, decide_eq_true_eq, decide_eq_true_eq] at hc
    exact hc.2
  exact digitValue?_of_isDigit (Number.isDigit_of_isOctalDigit hc)
    (Nat.lt_of_le_of_lt (Nat.sub_le_sub_right hle _) (by decide))

theorem digitValue?_hex {c : Char} (hc : Number.isHexDigit c = true) :
    digitValue? 16 c = some (digitWeight c) := by
  by_cases hdigit : Number.isDigit c = true
  · have hle : c.toNat ≤ '9'.toNat := (isDigit_iff.1 hdigit).2
    exact digitValue?_of_isDigit hdigit
      (Nat.lt_of_le_of_lt (Nat.sub_le_sub_right hle _) (by decide))
  · obtain ⟨hA, hF⟩ : 'A' ≤ c ∧ c ≤ 'F' := by
      simpa [Number.isHexDigit, hdigit] using hc
    -- The digits beyond `9` are capital letters; a small one is no digit here.
    have hsmall : ¬ ('a' ≤ c ∧ c ≤ 'f') :=
      fun h => absurd (Char.le_trans h.1 hF) (by decide)
    have hle : c.toNat ≤ 'F'.toNat := hF
    have hlt : c.toNat - 'A'.toNat + 10 < 16 :=
      Nat.lt_of_le_of_lt (Nat.add_le_add_right (Nat.sub_le_sub_right hle _) 10) (by decide)
    have hnot : ¬ ('0' ≤ c ∧ c ≤ '9') := fun h => hdigit (isDigit_iff.2 h)
    simp only [digitValue?, digitWeight, if_neg hdigit, if_neg hnot, if_neg hsmall,
      if_pos (And.intro hA hF), if_pos hlt]

/-- Accumulating digits from the left gives a sum of powers of the base. -/
theorem positionalValue?_eq {base : Nat} {digits : Text} (before : Nat)
    (h : ∀ c ∈ digits, digitValue? base c = some (digitWeight c)) :
    positionalValue? base before digits =
      some (before * base ^ digits.length + Nat.ofDigits base (digits.reverse.map digitWeight)) := by
  induction digits generalizing before with
  | nil => simp [positionalValue?]
  | cons c cs ih =>
    obtain ⟨hc, hcs⟩ := List.forall_mem_cons.1 h
    rw [positionalValue?, hc, Option.bind_some, ih _ hcs, List.reverse_cons, List.map_append,
      Nat.ofDigits_append, List.map_singleton, Nat.ofDigits_singleton, List.length_map,
      List.length_reverse, List.length_cons, pow_succ]
    congr 1
    ring

namespace IntLiteral

theorem unsigned_of_digit {c : Char} {cs : Text} (hc : Number.isDigit c = true) :
    unsigned (c :: cs) = c :: cs := by
  unfold unsigned
  split
  · next heq =>
    rw [(List.cons.inj heq).1] at hc
    cases hc
  · rfl

/-- All digits of a well-formed literal are digits of its base. -/
theorem digitValue?_of_isWellFormed {n : IntLiteral} (h : n.isWellFormed = true) :
    ∀ c ∈ n.digits.toList, digitValue? n.radix.base c = some (digitWeight c) := by
  rcases n with ⟨radix, digits⟩
  simp only [isWellFormed] at h
  intro c hc
  cases radix with
  | decimal =>
    rw [isDigits, Bool.and_eq_true] at h
    exact digitValue?_decimal (List.all_eq_true.1 h.2 c hc)
  -- The form of a character code and the octal form have the same digits.
  | octal | char =>
    rw [Bool.and_eq_true] at h
    exact digitValue?_octal (List.all_eq_true.1 h.2 c hc)
  | hex | double =>
    rw [Bool.and_eq_true] at h
    exact digitValue?_hex (List.all_eq_true.1 h.2 c hc)

/-- The value of a well-formed literal is missing only where it does not fit. -/
theorem value?_of_isWellFormed {n : IntLiteral} (h : n.isWellFormed = true) :
    n.value? = if n.magnitude < 2 ^ 64 then some n.magnitude else none := by
  obtain ⟨d, ds, hdigits, hd⟩ := Lexeme.exists_digit h
  have hmagnitude : n.magnitude =
      Nat.ofDigits n.radix.base (n.digits.toList.reverse.map digitWeight) := by
    rcases n with ⟨radix, digits⟩
    cases radix <;> rfl
  have hvalue := positionalValue?_eq 0 (digitValue?_of_isWellFormed h)
  rw [← hmagnitude, Nat.zero_mul, Nat.zero_add, hdigits] at hvalue
  rw [value?, hdigits, unsigned_of_digit hd]
  dsimp only
  rw [hvalue, Option.filter_some, valueBound]
  simp only [decide_eq_true_eq, Nat.reducePow]

end IntLiteral

/-! ## Integers that are read -/

theorem isWellFormed_of_number {c : Char} {cs : Text} {n : IntLiteral} {more : Nat}
    (hc : Number.isDigit c = true) (h : Lexeme.number c cs = (.token (.integer n), more)) :
    n.isWellFormed = true := by
  obtain ⟨hpos, -, hshape⟩ := Number.read_reach cs hc
  unfold Lexeme.number at h
  generalize Number.read (c :: cs) = found at hpos hshape h
  rcases found with ⟨shape, length⟩
  dsimp only at hpos hshape h
  -- At least the first digit has been read.
  obtain ⟨m, rfl⟩ : ∃ m, length = m + 1 := ⟨length - 1, by omega⟩
  rw [List.take_succ_cons] at hshape h
  obtain ⟨h, -⟩ := Prod.mk.inj h
  split at h
  · cases h
    obtain ⟨digits, hdigits, hwell⟩ := Number.exists_digits_of_shapeOf hc (hshape .decimal rfl)
    rw [hdigits]
    rwa [Radix.suffix, List.append_nil]
  · next radix hdecimal _ =>
    cases h
    obtain ⟨digits, hdigits, hwell⟩ := Number.exists_digits_of_shapeOf hc (hshape radix rfl)
    -- What stands in front of the suffix are the digits.
    have hlast : (c :: cs.take m).dropLast = digits := by
      rw [hdigits]
      cases radix with
      | decimal => exact absurd rfl hdecimal
      | octal | char | hex | double => exact List.dropLast_concat
    rwa [hlast]
  · cases h
  · cases h

/-- No other lexeme is an integer. -/
theorem isWellFormed_of_read {c : Char} {cs : Text} {n : IntLiteral} {more : Nat}
    (h : Lexeme.read c cs = (.token (.integer n), more)) : n.isWellFormed = true := by
  unfold Lexeme.read at h
  -- Only the reader of numbers makes an integer.
  split_ifs at h with hblank hdigit hletter hquote
  · cases h
  · exact isWellFormed_of_number hdigit h
  · unfold Lexeme.word at h
    dsimp only at h
    split at h <;> cases h
  · unfold Lexeme.string at h
    dsimp only at h
    split at h <;> cases h
  · split at h
    · next inside => exact absurd (congrArg Prod.fst h) (Lexeme.commentTail_ne_token inside)
    · unfold Lexeme.symbol at h
      split at h <;> cases h

/-! ## Tokens that are handed out -/

/-- The tokens of an answer. -/
def Lookahead.Supply.tokens : Lookahead.Supply → List Token
  | .item i => tokensOf [i]
  | .all found => found.tokens

/-- A lexer of the source hands out the token: to a pull, to a demand after others, or when all tokens
are collected. -/
inductive HandedOut (source : String) (t : Token) : Prop
  | pulled (n : Nat) : (Lexer.ofText source.toList).pull n = .ok t → HandedOut source t
  | collected : t ∈ (tokenize source).tokens → HandedOut source t
  | supplied (demands : List Lookahead.Demand) (supply : Lookahead.Supply) :
    supply ∈ (Lookahead.ofText source.toList).supplies demands → t ∈ supply.tokens →
      HandedOut source t

/-- What is collected is pulled, up to the end of the source. -/
theorem Lexer.exists_pull_of_mem {errorsLeft : Nat} {l : Lexer} {t : Token}
    (h : t ∈ (l.tokenizeFrom errorsLeft).1.tokens) :
    (∃ n, l.pull n = .ok t) ∨ t.kind = .eof := by
  -- By induction on the run; what comes later is pulled one item later.
  fun_induction tokenizeFrom errorsLeft l with
  | case1 errorsLeft l token l' hnext hend =>
    obtain rfl := List.mem_singleton.1 h
    exact Or.inl ⟨0, by rw [pull, hnext]⟩
  | case2 errorsLeft l token l' hnext hgoesOn found l'' hrest ih =>
    rcases List.mem_cons.1 h with rfl | hmem
    · exact Or.inl ⟨0, by rw [pull, hnext]⟩
    · rw [hrest] at ih
      refine (ih hmem).imp ?_ id
      rintro ⟨n, hn⟩
      exact ⟨n + 1, by rw [pull, hnext]; exact hn⟩
  | case3 l e l' hnext =>
    obtain rfl := List.mem_singleton.1 h
    exact Or.inr rfl
  | case4 l e l' hnext errorsLeft found l'' hrest ih =>
    rw [hrest] at ih
    refine (ih h).imp ?_ id
    rintro ⟨n, hn⟩
    exact ⟨n + 1, by rw [pull, hnext]; exact hn⟩

namespace Lookahead

theorem ok_mem_of_mem_tokensOf {items : List Item} {t : Token} (h : t ∈ tokensOf items) :
    .ok t ∈ items := by
  obtain ⟨item, hitem, ht⟩ := List.mem_filterMap.1 h
  cases item with
  | ok t' =>
    rw [← Option.some.inj ht]
    exact hitem
  | error e => cases ht

theorem exists_of_mem_stretch {s : Nat → Item} {cursor count : Nat} {t : Token}
    (h : t ∈ tokensOf (stretch s cursor count)) : ∃ n, s n = .ok t := by
  obtain ⟨n, -, hn⟩ := List.mem_map.1 (ok_mem_of_mem_tokensOf h)
  exact ⟨n, hn⟩

/-- An answer holds tokens of the stream, and the end of the source. -/
theorem Answers.mem {s : Nat → Item} {eof t : Token} {cursor cursor' : Nat} {demand : Demand}
    {supply : Supply} (h : Answers s eof cursor demand supply cursor') (ht : t ∈ supply.tokens) :
    (∃ n, s n = .ok t) ∨ t = eof := by
  cases h with
  | next | peek => exact Or.inl ⟨cursor, (List.mem_singleton.1 (ok_mem_of_mem_tokensOf ht)).symm⟩
  | toEnd hgoes hlast hfew => exact Or.inl (exists_of_mem_stretch ht)
  | toLimit hgoes hlast hmany =>
    rcases List.mem_append.1 ht with ht | ht
    · exact Or.inl (exists_of_mem_stretch ht)
    · exact Or.inr (List.mem_singleton.1 ht)

theorem Follow.mem {s : Nat → Item} {eof t : Token} {cursor : Nat} {demands : List Demand}
    {supplies : List Supply} {supply : Supply} (h : Follow s eof cursor demands supplies)
    (hsupply : supply ∈ supplies) (ht : t ∈ supply.tokens) : (∃ n, s n = .ok t) ∨ t = eof := by
  induction h with
  | nil => cases hsupply
  | cons hanswer _ ih =>
    rcases List.mem_cons.1 hsupply with rfl | hmem
    · exact hanswer.mem ht
    · exact ih hmem

end Lookahead

/-- A token that is handed out is the end of the source, or stands on a piece of the source. -/
theorem HandedOut.stands {source : String} {t : Token} (h : HandedOut source t) :
    t.kind = .eof ∨ ∃ before text after, source.toList = before ++ (text ++ after) ∧
      Item.Stands (Place.origin.advance before) after text (.ok t) := by
  obtain ⟨items, htiled, hpulls⟩ := Lexer.exists_items (Lexer.ofText source.toList)
  -- The n-th item that is pulled is one of the text, or it is the end.
  have hpulled : ∀ n, (Lexer.ofText source.toList).pull n = .ok t →
      t.kind = .eof ∨ ∃ before text after, source.toList = before ++ (text ++ after) ∧
        Item.Stands (Place.origin.advance before) after text (.ok t) := by
    intro n hn
    rw [hpulls n] at hn
    by_cases hlt : n < items.length
    · rw [List.getD_eq_getElem _ _ hlt] at hn
      exact Or.inr (htiled.mem (hn ▸ List.getElem_mem hlt))
    · rw [List.getD_eq_default _ _ (Nat.le_of_not_lt hlt)] at hn
      cases hn
      exact Or.inl rfl
  cases h with
  | pulled n hn => exact hpulled n hn
  | collected hmem =>
    rcases Lexer.exists_pull_of_mem hmem with ⟨n, hn⟩ | heof
    · exact hpulled n hn
    · exact Or.inl heof
  | supplied demands supply hsupply hmem =>
    -- What is pulled behind the end is the end again.
    have hend : ∀ n, Lexer.isEnd ((Lexer.ofText source.toList).pull n) = true →
        (Lexer.ofText source.toList).pull n = .ok (Lexer.ofText source.toList).endToken := by
      intro n hn
      rw [hpulls n] at hn ⊢
      by_cases hlt : n < items.length
      · rw [List.getD_eq_getElem _ _ hlt, htiled.lossless.not_end _ (List.getElem_mem hlt)] at hn
        cases hn
      · rw [List.getD_eq_default _ _ (Nat.le_of_not_lt hlt)]
    -- A lexer that looks ahead hands out what is pulled, in the same order.
    have hstart : Lookahead.ReadsFrom (fun n => (Lexer.ofText source.toList).pull n)
        (Lexer.ofText source.toList).endToken 0 (Lookahead.ofText source.toList) :=
      ⟨fun n => by rw [Nat.zero_add]; exact Lookahead.item_eq_pull n _, rfl⟩
    rcases (hstart.supplies hend demands).mem hsupply hmem with ⟨n, hn⟩ | rfl
    · exact hpulled n hn
    · exact Or.inl rfl

/-- Every integer that a lexer hands out decodes to the positional value of its digits, unless this takes
more than 64 bits.  No value is missing for another reason: the digits are those of the source, up to
the suffix letter, and there are some, and all of them belong to the base. -/
theorem integer_decodes (source : String) (t : Token) (n : IntLiteral) (h : HandedOut source t)
    (hn : t.kind = .integer n) :
    t.span.text source.toList = n.digits.toList ++ n.radix.suffix ∧
      n.digits.toList ≠ [] ∧
      (∀ c ∈ n.digits.toList, digitValue? n.radix.base c = some (digitWeight c)) ∧
      n.value? = if n.magnitude < 2 ^ 64 then some n.magnitude else none := by
  rcases h.stands with heof | ⟨before, text, after, hsource, hstands⟩
  · rw [heof] at hn
    cases hn
  -- What stands at the span of the token is what it has been read from.
  · have htext : t.span.text source.toList = text := by
      have hspan : t.span = _ := hstands.span_eq
      rw [hspan, hsource, offset_advance_origin, Span.text, Text.slice?_piece,
        Option.getD_some]
    have hspells := hstands.spells
    -- Only what has the form of a number is read as an integer.
    have hwell : n.isWellFormed = true := by
      cases hstands with
      | token hread =>
        obtain rfl : _ = Token.Kind.integer n := hn
        exact isWellFormed_of_read hread
    rw [hn] at hspells
    obtain ⟨d, ds, hdigits, -⟩ := Lexeme.exists_digit hwell
    refine ⟨?_, hdigits ▸ List.cons_ne_nil d ds, IntLiteral.digitValue?_of_isWellFormed hwell,
      IntLiteral.value?_of_isWellFormed hwell⟩
    rw [htext]
    cases hspells with
    | integer => rfl

/-- One digit more than 64 bits hold. -/
theorem integer_decodes_overflow :
    (tokenize "10000000000000000H").tokens =
        [⟨.integer ⟨.hex, "10000000000000000"⟩, ⟨0, 18⟩, 1, 1⟩, ⟨.eof, ⟨18, 18⟩, 1, 19⟩] ∧
      (IntLiteral.mk .hex "10000000000000000").value? = none := by
  have htokens : (tokenize "10000000000000000H").tokens =
      [⟨.integer ⟨.hex, "10000000000000000"⟩, ⟨0, 18⟩, 1, 1⟩, ⟨.eof, ⟨18, 18⟩, 1, 19⟩] := by
    decide +kernel
  obtain ⟨-, -, -, hvalue⟩ := integer_decodes "10000000000000000H" _ ⟨.hex, "10000000000000000"⟩
    (.collected (by rw [htokens]; exact List.mem_cons_self)) rfl
  rw [if_neg (by decide +kernel)] at hvalue
  exact ⟨htokens, hvalue⟩

end Modula

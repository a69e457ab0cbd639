/-!
# Integer literals

  An integer is written in one of five forms, told apart by a suffix letter:

      255     decimal
      377B    octal
      101C    octal, the code of a character
      0FFH    hexadecimal
      1D      hexadecimal, a constant of double length

  A literal keeps the digits as they were written, without the suffix, and its form.  Its value is
  the positional value of the digits in the base of the form (`IntLiteral.value?`), as long as that
  fits into 64 bits.
-/

namespace Modula

/-- The form in which an integer is written. -/
inductive Radix where
  | decimal | octal | char | hex | double
deriving DecidableEq, Repr

/-- The base in which the digits of the form count. -/
def Radix.base : Radix → Nat
  | .decimal => 10
  | .octal => 8
  | .char => 8
  | .hex => 16
  | .double => 16

/-- The value of one digit; letters stand for 10 to 15 in either case. -/
def digitValue? (base : Nat) (c : Char) : Option Nat :=
  let value :=
    if '0' ≤ c ∧ c ≤ '9' then c.toNat - '0'.toNat
    else if 'a' ≤ c ∧ c ≤ 'f' then c.toNat - 'a'.toNat + 10
    else if 'A' ≤ c ∧ c ≤ 'F' then c.toNat - 'A'.toNat + 10
    else base
  if value < base then some value else none

/-- The positional value of digits that follow digits of value `before`. -/
def positionalValue? (base before : Nat) : List Char → Option Nat
  | [] => some before
  | c :: cs => (digitValue? base c).bind fun d => positionalValue? base (before * base + d) cs

/-- An integer literal: its form, and its digits without the suffix letter. -/
structure IntLiteral where
  radix : Radix
  digits : String
deriving DecidableEq, Repr

namespace IntLiteral

/-- Values are below this bound, which is 2⁶⁴. -/
def valueBound : Nat := 18446744073709551616

/-- A plus sign before the digits is passed over. -/
def unsigned : List Char → List Char
  | '+' :: cs => cs
  | cs => cs

/-- The value, if there is at least one digit, all are digits of the base, and it fits into 64
bits. -/
def value? (n : IntLiteral) : Option Nat :=
  match unsigned n.digits.toList with
  | [] => none
  | c :: cs => (positionalValue? n.radix.base 0 (c :: cs)).filter (· < valueBound)

end IntLiteral

end Modula

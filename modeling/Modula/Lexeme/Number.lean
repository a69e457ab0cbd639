import Modula.Text
import Modula.Token.Integer
/-!
# Numbers at the front of a text

  A number is read by maximal munch from its first digit:

      integer  =  digit {digit}                        decimal
               |  octal {octal} ("B" | "C")            octal, character code
               |  digit {hexDigit} ("H" | "D")         hexadecimal, double length
      real     =  digit {digit} "." {digit} ["E" ["+" | "-"] digit {digit}]

  Three rules settle what the grammar leaves open.

  1. The first point of `..` never belongs to a number, so that `1..10` is a range of two integers.
  2. An exponent is taken only when it is complete: `1.5E+` is the real `1.5` followed by letters.
  3. A number does not run straight into a letter or digit.  If one follows, the number swallows the
     whole run and is malformed.

  `Number.read` answers with the shape of the number and the count of characters it takes.  All of
  them are ASCII, so the count is a count of bytes as well.
-/

namespace Modula.Number

/-! ## Classes of characters -/

/-- `0` to `9`. -/
def isDigit (c : Char) : Bool := '0' ≤ c && c ≤ '9'

/-- `0` to `7`. -/
def isOctalDigit (c : Char) : Bool := '0' ≤ c && c ≤ '7'

/-- `0` to `9` and the capitals `A` to `F`. -/
def isHexDigit (c : Char) : Bool := isDigit c || ('A' ≤ c && c ≤ 'F')

/-- `A` to `Z` in either case. -/
def isLetter (c : Char) : Bool := ('a' ≤ c && c ≤ 'z') || ('A' ≤ c && c ≤ 'Z')

/-- A letter or a digit. -/
def isAlphanumeric (c : Char) : Bool := isLetter c || isDigit c

/-! ## Shapes -/

/-- What a number turned out to be. -/
inductive Shape where
  | integer (radix : Radix)
  | real
  /-- Letters or digits follow that no form of number has. -/
  | malformed
deriving DecidableEq, Repr

/-- Length of the longest front in which every character passes. -/
def run (p : Char → Bool) (cs : Text) : Nat := (cs.takeWhile p).length

/-- The number that takes `length` characters, or the malformed number into which it runs. -/
def closed (cs : Text) (length : Nat) (shape : Shape) : Shape × Nat :=
  match run isAlphanumeric (cs.drop length) with
  | 0 => (shape, length)
  | extra + 1 => (.malformed, length + (extra + 1))

/-- Length of a complete exponent, 0 if there is none. -/
def exponentLength : Text → Nat
  | 'E' :: '+' :: cs => signed (run isDigit cs)
  | 'E' :: '-' :: cs => signed (run isDigit cs)
  | 'E' :: cs => unsigned (run isDigit cs)
  | _ => 0
where
  /-- An exponent with a sign and this many digits. -/
  signed : Nat → Nat
    | 0 => 0
    | digits + 1 => digits + 1 + 2
  /-- An exponent without a sign and with this many digits. -/
  unsigned : Nat → Nat
    | 0 => 0
    | digits + 1 => digits + 1 + 1

/-- Whether there are digits, and all of them octal. -/
def isOctal (digits : Text) : Bool := !digits.isEmpty && digits.all isOctalDigit

/-- The form that a suffix letter, itself a hexadecimal digit, gives to the digits before it. -/
def suffixed (digits : Text) (suffix : Char) : Shape :=
  match suffix with
  | 'B' => if isOctal digits then .integer .octal else .malformed
  | 'C' => if isOctal digits then .integer .char else .malformed
  | 'D' => .integer .double
  | _ => .malformed

/-- An integer whose longest front of decimal digits has length `decimals`. -/
def readInteger (cs : Text) (decimals : Nat) : Shape × Nat :=
  let hexes := run isHexDigit cs
  match cs.drop hexes with
  | 'H' :: _ => closed cs (hexes + 1) (.integer .hex)
  | _ =>
    if hexes = decimals then closed cs decimals (.integer .decimal)
    else
      match cs.drop (hexes - 1) with
      | suffix :: _ => closed cs hexes (suffixed (cs.take (hexes - 1)) suffix)
      | [] => closed cs hexes .malformed

/-- The number at the front of a text that begins with a digit: its shape and its length. -/
def read (cs : Text) : Shape × Nat :=
  let decimals := run isDigit cs
  match cs.drop decimals with
  | '.' :: '.' :: _ => readInteger cs decimals
  | '.' :: fraction =>
    let length := decimals + 1 + run isDigit fraction
    closed cs (length + exponentLength (cs.drop length)) .real
  | _ => readInteger cs decimals

end Modula.Number

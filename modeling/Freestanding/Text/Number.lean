import Freestanding.Text.Basic

/-!
# Numbers in text

Numbers are written in decimal without leading zeros, addresses in lower-case hexadecimal, and bytes
and bit patterns in upper-case hexadecimal of a fixed width.  Only the ten ASCII digits are read as
a number.

## Main definitions

* `Text.decimal`, `Text.decimalInt` — decimal numerals.
* `Text.hex`, `Text.hexUpper` — hexadecimal numerals.
* `Text.toNat?`, `Text.toWord?` — reading a decimal numeral, of any size and of 64 bits.
-/

namespace Freestanding.Text

/-- The decimal numeral of a natural number. -/
def decimal (n : Nat) : Text :=
  Nat.toDigits 10 n

/-- The decimal numeral of an integer. -/
def decimalInt : Int → Text
  | .ofNat n => decimal n
  | .negSucc n => '-' :: decimal (n + 1)

/-- The lower-case hexadecimal numeral of a natural number. -/
def hex (n : Nat) : Text :=
  Nat.toDigits 16 n

/-- The upper-case hexadecimal digit of a number below 16. -/
def upperDigit (n : Nat) : Char :=
  if n < 10 then Char.ofNat (48 + n) else Char.ofNat (55 + n)

/-- The last `width` upper-case hexadecimal digits of a number. -/
def hexUpper : (width n : Nat) → Text
  | 0, _ => []
  | width + 1, n => hexUpper width (n / 16) ++ [upperDigit (n % 16)]

/-- The number denoted by a text of one or more ASCII digits. -/
def toNat? (t : Text) : Option Nat :=
  if t ≠ [] ∧ t.all Char.isDigit then some (Nat.ofDigitChars 10 t 0) else none

/-- The 64-bit number denoted by a text of one or more ASCII digits. -/
def toWord? (t : Text) : Option UInt64 :=
  (toNat? t).bind fun n => if n < UInt64.size then some n.toUInt64 else none

end Freestanding.Text

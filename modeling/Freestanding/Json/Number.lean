import Freestanding.Json.Basic

/-!
# The values of JSON numbers

A number without point and exponent is an integer; `-0` is the one exception and counts as a
floating-point number.  Every other number, and every integer beyond 64 bits, is a floating-point
number, and must be finite.

A floating-point number is read from at most as many leading digits as fit in 64 bits.  These are
scaled by a power of ten, in steps where one power is not enough.

## Main definitions

* `Json.Numeral.toWord?` — the number as a 64-bit natural number.
* `Json.Scalar`, `Json.Numeral.scalar?` — the number as an integer or a floating-point number.
* `Json.Scalar.toFloat64`, `Json.Scalar.toFloat32` — its value in the two formats.
-/

namespace Freestanding.Json

/-- The value of a number. -/
inductive Scalar
  /-- A natural number of 64 bits. -/
  | natural (n : UInt64)
  /-- A negative integer of 64 bits. -/
  | negative (n : Int64)
  /-- A finite floating-point number. -/
  | real (x : Float)

/-- The leading digits taken so far and the number of digits left out. -/
structure Leading where
  /-- The number that the digits denote. -/
  significand : Nat := 0
  /-- The number of digits that were taken. -/
  taken : Nat := 0
  /-- The number of digits that did not fit. -/
  dropped : Nat := 0

/-- Take one more digit, unless it or one before it does not fit in 64 bits. -/
def Leading.push (l : Leading) (digit : Char) : Leading :=
  let next := l.significand * 10 + (digit.toNat - 48)
  if l.dropped = 0 ∧ next < UInt64.size then { l with significand := next, taken := l.taken + 1 }
  else { l with dropped := l.dropped + 1 }

/-- Take digits while they fit, from a significand on. -/
def Leading.ofDigits (significand : Nat) (digits : Text) : Leading :=
  digits.foldl Leading.push { significand := significand }

/-- A floating-point power of ten, for exponents up to 308. -/
def power (n : Nat) : Float :=
  Float.ofScientific 1 false n

/-- Divide by a power of ten, at most 308 of its exponent at a time. -/
def divideByPower : (steps : Nat) → (x : Float) → (n : Nat) → Float
  | 0, x, n => x / power (min n 308)
  | steps + 1, x, n =>
    if n ≤ 308 then x / power n
    else if x == 0 then x
    else divideByPower steps (x / power 308) (n - 308)

/-- A significand times a power of ten, if it is finite. -/
def scale? (significand : Nat) (exponent : Int) : Option Float :=
  let x := significand.toUInt64.toFloat
  if exponent < 0 then
    -- four steps take the greatest significand below the least positive number
    some (divideByPower 4 x exponent.natAbs)
  else if exponent ≤ 308 then
    let y := x * power exponent.toNat
    if y.isFinite then some y else none
  else if significand = 0 then some 0
  else none

/-- The floating-point number denoted by digits, if it is finite. -/
def Numeral.real? (n : Numeral) : Option Float := do
  let whole := Leading.ofDigits 0 n.whole
  let all := Leading.ofDigits whole.significand (n.fraction.getD [])
  let shift : Int := whole.dropped - all.taken
  let exponent : Int :=
    match n.exponent with
    | some (true, digits) => shift - Nat.ofDigitChars 10 digits 0
    | some (false, digits) => shift + Nat.ofDigitChars 10 digits 0
    | none => shift
  let x ← scale? all.significand exponent
  return if n.negative then -x else x

/-- A number that is written as an integer. -/
def Numeral.isInteger (n : Numeral) : Bool :=
  n.fraction.isNone && n.exponent.isNone

/-- The number that the digits before the point denote. -/
def Numeral.magnitude (n : Numeral) : Nat :=
  Nat.ofDigitChars 10 n.whole 0

/-- The value of a number, unless it is infinite. -/
def Numeral.scalar? (n : Numeral) : Option Scalar :=
  let m := n.magnitude
  if n.isInteger ∧ ¬ n.negative ∧ m < UInt64.size then some (.natural m.toUInt64)
  else if n.isInteger ∧ n.negative ∧ 0 < m ∧ m ≤ UInt64.size / 2 then some (.negative (-(m : Int)).toInt64)
  else n.real?.map .real

/-- The number as a natural number of 64 bits. -/
def Numeral.toWord? (n : Numeral) : Option UInt64 :=
  if n.isInteger ∧ ¬ n.negative ∧ n.magnitude < UInt64.size then some n.magnitude.toUInt64 else none

/-- The bit pattern of a number in the 64-bit format. -/
def Scalar.toFloat64 : Scalar → UInt64
  | .natural n => n.toFloat.toBits
  | .negative n => n.toFloat.toBits
  | .real x => x.toBits

/-- The bit pattern of a number in the 32-bit format. -/
def Scalar.toFloat32 : Scalar → UInt32
  | .natural n => n.toFloat32.toBits
  | .negative n => n.toFloat32.toBits
  | .real x => x.toFloat32.toBits

end Freestanding.Json

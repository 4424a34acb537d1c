/-!
# Shortest decimals

A binary floating-point number stands for all reals that round to it.  The shortest decimal among them
has the fewest digits, and of those the one nearest to the number.  All arithmetic is exact.

## Main definitions

* `Decimal` — a whole number of units of a power of ten.
* `Decimal.Interval` — the reals that round to a floating-point number.
* `Decimal.shortest` — the shortest decimal in an interval.
* `Decimal.ofFloat64`, `Decimal.ofFloat32` — the shortest decimals of finite bit patterns.
-/

namespace Freestanding

/-- The number `digits * 10 ^ exponent`. -/
structure Decimal where
  /-- The digits as a number. -/
  digits : Nat
  /-- The power of ten. -/
  exponent : Int
  deriving DecidableEq, Repr

namespace Decimal

/-- A floating-point number and the reals that round to it, all in units of `2 ^ exponent`. -/
structure Interval where
  /-- The least real that rounds to the number, or the bound below all of them. -/
  low : Nat
  /-- The number. -/
  value : Nat
  /-- The greatest real that rounds to the number, or the bound above all of them. -/
  high : Nat
  /-- The unit as a power of two. -/
  exponent : Int
  /-- The two bounds round to the number. -/
  closed : Bool

/-- The interval of a positive bit pattern without its sign, for a format with the given number of
fraction bits and the exponent of its least positive number. -/
def Interval.ofPattern (fractionBits : Nat) (leastExponent : Int) (pattern : Nat) : Interval :=
  let exponent := pattern >>> fractionBits
  let fraction := pattern % 1 <<< fractionBits
  let significand := if exponent = 0 then fraction else 1 <<< fractionBits + fraction
  -- numbers are nearer to their lower neighbour where the exponent changes
  let below := if fraction = 0 ∧ 1 < exponent then 1 else 2
  { low := 4 * significand - below
    value := 4 * significand
    high := 4 * significand + 2
    exponent := leastExponent + (exponent - 1 : Nat) - 2
    closed := significand % 2 = 0 }

/-- The powers of two and ten by which a unit and a decimal are brought to whole numbers: a decimal
`d * 10 ^ k` and `n` units are in the same order as `d * scales.1` and `n * scales.2`. -/
def scales (unit k : Int) : Nat × Nat :=
  (Nat.pow 10 k.toNat <<< (-unit).toNat, Nat.pow 10 (-k).toNat <<< unit.toNat)

/-- The decimal with the given power of ten that lies in the interval and is nearest to its number;
of two that are equally near, the even one. -/
def nearest? (i : Interval) (k : Int) : Option Nat :=
  let (tens, twos) := scales i.exponent k
  let below := i.value * twos / tens
  let above := below + 1
  let lowest := i.low * twos
  let highest := i.high * twos
  let belowFits := lowest < below * tens || (i.closed && lowest == below * tens)
  let aboveFits := above * tens < highest || (i.closed && above * tens == highest)
  let belowGap := i.value * twos - below * tens
  let aboveGap := above * tens - i.value * twos
  if belowFits && aboveFits then
    if belowGap < aboveGap || (belowGap == aboveGap && below % 2 == 0) then some below
    else some above
  else if belowFits then some below
  else if aboveFits then some above
  else none

/-- The decimal with the greatest power of ten, from `k` downwards, that lies in the interval. -/
def shortestFrom (i : Interval) : (steps : Nat) → (k : Int) → Decimal
  | 0, k => ⟨0, k⟩
  | steps + 1, k =>
    match nearest? i k with
    | some digits => ⟨digits, k⟩
    | none => shortestFrom i steps (k - 1)

/-- The shortest decimal in an interval.  No floating-point number reaches `10 ^ 309`, and each has a
decimal whose last digit stands at the 343rd place after the point or before. -/
def shortest (i : Interval) : Decimal :=
  shortestFrom i 653 309

/-- The shortest decimal of a positive finite 64-bit pattern. -/
def ofFloat64 (pattern : Nat) : Decimal :=
  shortest (.ofPattern 52 (-1074) pattern)

/-- The shortest decimal of a positive finite 32-bit pattern. -/
def ofFloat32 (pattern : Nat) : Decimal :=
  shortest (.ofPattern 23 (-149) pattern)

end Decimal

end Freestanding

import IndexedTable.Binary64.Basic

/-! The shortest decimal that reads back as a given 64-bit number. Among the decimals with the
fewest digits that round to the number, the one nearest to it is taken. -/

namespace IndexedTable

open scoped Power

/-- The decimal number `digits * 10 ^ exponent`. -/
structure Decimal where
  digits : Nat
  exponent : Int
  deriving DecidableEq, Repr

namespace Decimal

/-- Positional notation without an exponent: no point in a whole number, and a zero before the point
of a number below one. -/
def positional (d : Decimal) : String :=
  let text := Nat.toDigits 10 d.digits
  if 0 ≤ d.exponent then String.ofList (text ++ List.replicate d.exponent.toNat '0')
  else
    let places := (-d.exponent).toNat
    let padded := List.replicate (places + 1 - text.length) '0' ++ text
    let whole := padded.length - places
    String.ofList (padded.take whole ++ '.' :: padded.drop whole)

/-- Moves trailing zeros of the digits into the exponent, `fuel` of them at most. -/
def trim : Nat → Decimal → Decimal
  | 0, d => d
  | fuel + 1, d =>
    if d.digits ≠ 0 ∧ d.digits % 10 = 0 then trim fuel ⟨d.digits / 10, d.exponent + 1⟩ else d

end Decimal

namespace Binary64

/-- The numbers that round to `x`, counted in quarters of the least positive number. -/
structure Neighbourhood where
  low : Nat
  high : Nat
  /-- The ends themselves round to `x`. -/
  closed : Bool

/-- Half the gap on either side of the magnitude, and a quarter of it below a power of two, where
the next smaller number is only half as far away. A tie rounds to an even fraction. -/
def neighbourhood (x : Binary64) : Neighbourhood where
  low := 4 * x.magnitude - (if x.fraction = 0 ∧ 1 < x.exponentField then x.gap else 2 * x.gap)
  high := 4 * x.magnitude + 2 * x.gap
  closed := x.fraction % 2 == 0

/-- Whether the quotient lies in the neighbourhood, both counted in the same quarters. -/
def Neighbourhood.contains (n : Neighbourhood) (numerator denominator : Nat) : Bool :=
  if n.closed then
    decide (n.low * denominator ≤ numerator) && decide (numerator ≤ n.high * denominator)
  else
    decide (n.low * denominator < numerator) && decide (numerator < n.high * denominator)

/-- The largest `e` with `10 ^ e ≤ numerator / denominator`, for a positive quotient. -/
def decimalExponent (numerator denominator : Nat) : Int :=
  if denominator ≤ numerator then
    (((Nat.toDigits 10 (numerator / denominator)).length - 1 : Nat) : Int)
  else
    let inverse := (denominator + numerator - 1) / numerator
    .negOfNat (Nat.toDigits 10 (inverse - 1)).length

/-- The nearer of the two neighbours of `x` on the grid of multiples of `10 ^ exponent` that round
to `x`, if one of them does; of two equally near ones the larger. -/
def nearestOnGrid (x : Binary64) (exponent : Int) : Option Decimal :=
  let quarters := 4 * x.magnitude
  let scale := 2 ^ (1076 : Nat)
  -- One step of the grid is `step / divisor` quarters.
  let step := if 0 ≤ exponent then scale * 10 ^ exponent.toNat else scale
  let divisor := if 0 ≤ exponent then 1 else 10 ^ (-exponent).toNat
  let below := quarters * divisor / step
  let rest := quarters * divisor % step
  let lower := x.neighbourhood.contains (below * step) divisor
  let upper := x.neighbourhood.contains ((below + 1) * step) divisor
  if upper && (!lower || decide (step ≤ 2 * rest)) then some ⟨below + 1, exponent⟩
  else if lower then some ⟨below, exponent⟩
  else none

/-- The shortest decimal that rounds to the magnitude of a finite number. Seventeen digits are
always enough. -/
def shortest (x : Binary64) : Decimal :=
  if x.magnitude = 0 then ⟨0, 0⟩
  else
    let leading := decimalExponent (4 * x.magnitude) (2 ^ (1076 : Nat))
    let found :=
      (List.range 17).findSome? fun count : Nat => x.nearestOnGrid (leading - (count : Int))
    (found.getD ⟨0, 0⟩).trim 18

/-- The written form: the shortest decimal in positional notation, a minus sign also on negative
zero, and words for the patterns that are no finite number. -/
def render (x : Binary64) : String :=
  if x.isNaN then "NaN"
  else
    let absolute := if x.isInfinite then "inf" else x.shortest.positional
    if x.negative then "-" ++ absolute else absolute

end Binary64

end IndexedTable

import IndexedTable.Binary64.Basic

/-! Rounding exact quotients and integers to the nearest 64-bit number. A value halfway between two
neighbours goes to the one with an even last bit. -/

namespace IndexedTable.Binary64

open scoped Power

/-- The integer nearest to `numerator / denominator`; a half goes to the even neighbour. -/
def nearestEven (numerator denominator : Nat) : Nat :=
  let quotient := numerator / denominator
  let twice := 2 * (numerator % denominator)
  if twice < denominator then quotient
  else if denominator < twice then quotient + 1
  else quotient + quotient % 2

/-- The largest `e` with `2 ^ e ≤ numerator / denominator`, for a positive quotient. -/
def binaryExponent (numerator denominator : Nat) : Int :=
  if denominator ≤ numerator then ((numerator / denominator).log2 : Int)
  else
    let inverse := (denominator + numerator - 1) / numerator
    .negOfNat (if 2 ^ inverse.log2 = inverse then inverse.log2 else inverse.log2 + 1)

/-- The magnitude pattern nearest to a positive quotient. The rounded significand is added to its
exponent field, so that a carry out of the significand moves to the next exponent; patterns beyond
the finite ones become infinity. -/
def nearestPattern (numerator denominator : Nat) : Nat :=
  let exponent := max (binaryExponent numerator denominator) (-1022)
  let shift := 52 - exponent
  let significand :=
    if 0 ≤ shift then nearestEven (numerator * 2 ^ shift.toNat) denominator
    else nearestEven numerator (denominator * 2 ^ (-shift).toNat)
  min ((exponent + 1022).toNat * 2 ^ (52 : Nat) + significand) (2047 * 2 ^ (52 : Nat))

/-- The number nearest to `numerator / denominator`, and positive zero for a zero numerator. -/
def ofRatio (numerator denominator : Nat) : Binary64 :=
  if numerator = 0 then zero else ⟨(nearestPattern numerator denominator).toUInt64⟩

/-- The number nearest to an integer. -/
def ofInt (n : Int) : Binary64 :=
  if n < 0 then ⟨(2 ^ (63 : Nat) + nearestPattern n.natAbs 1).toUInt64⟩ else ofRatio n.natAbs 1

end IndexedTable.Binary64

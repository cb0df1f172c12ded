/-! Floating-point numbers of 64 bits, held by their bit pattern. Not-a-number patterns keep sign
and payload, so two numbers can compare equal and still be different values. Comparison is on the
exact number a pattern denotes, as a multiple of the least positive one. -/

namespace IndexedTable

namespace Power

/-- Where this is open, powers are those of the core library, whatever other instances are in
scope. -/
scoped instance (priority := high) core {α : Type} [NatPow α] : Pow α Nat := instPowNat

end Power

open scoped Power

/-- A number in the binary interchange format of 64 bits: a sign bit, eleven exponent bits and
fifty-two fraction bits. -/
structure Binary64 where
  bits : UInt64
  deriving DecidableEq, Repr

namespace Binary64

/-- The sign bit. -/
def negative (x : Binary64) : Bool := decide (2 ^ (63 : Nat) ≤ x.bits.toNat)

/-- The exponent field, with its bias. -/
def exponentField (x : Binary64) : Nat := x.bits.toNat / 2 ^ (52 : Nat) % 2 ^ (11 : Nat)

/-- The fraction field, without the hidden bit. -/
def fraction (x : Binary64) : Nat := x.bits.toNat % 2 ^ (52 : Nat)

/-- A full exponent with a fraction is not a number. -/
def isNaN (x : Binary64) : Bool := x.exponentField == 2047 && x.fraction != 0

/-- A full exponent without a fraction is an infinity. -/
def isInfinite (x : Binary64) : Bool := x.exponentField == 2047 && x.fraction == 0

/-- Distance to the next larger magnitude, as a multiple of `2 ^ -1074`. -/
def gap (x : Binary64) : Nat := 2 ^ (x.exponentField - 1)

/-- The absolute value, as a multiple of `2 ^ -1074`, the least positive number. An infinity counts
as the first power of two beyond the finite numbers. -/
def magnitude (x : Binary64) : Nat :=
  if x.exponentField = 0 then x.fraction else (2 ^ (52 : Nat) + x.fraction) * x.gap

/-- The value, as a multiple of `2 ^ -1074`. Both zeros denote the same number. -/
def units (x : Binary64) : Int :=
  if x.negative then -(x.magnitude : Int) else x.magnitude

/-- Numbers are equal when they denote the same value, and all not-a-number patterns are equal. -/
def equal (x y : Binary64) : Bool :=
  if x.isNaN && y.isNaN then true
  else if x.isNaN || y.isNaN then false
  else x.units == y.units

/-- The order of the numbers, with every not-a-number pattern above all of them. -/
def order (x y : Binary64) : Ordering :=
  match x.isNaN, y.isNaN with
  | true, true => .eq
  | true, false => .gt
  | false, true => .lt
  | false, false => compare x.units y.units

/-- Positive zero. -/
def zero : Binary64 := ⟨0⟩

end Binary64

end IndexedTable

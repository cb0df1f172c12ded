import IndexedTable.Binary64.Rounding
import IndexedTable.Value.Basic

/-! Conversion of a value to the type of a column. Integers widen, and narrow where the number fits;
64-bit integers and times are interchangeable; null belongs to every type. -/

namespace IndexedTable.Value

open scoped Power

/-- The 32-bit integer with the same number, if there is one. -/
def narrow? (n : Int64) : Option Int32 :=
  if -2 ^ (31 : Nat) ≤ n.toInt ∧ n.toInt < 2 ^ (31 : Nat) then some n.toInt32 else none

/-- The value as one of the given type, or nothing when the type has no such value. An integer
becomes the floating-point number nearest to it. -/
def coerce? (value : Value) (type : DataType) : Option Value :=
  match value, type with
  | null, _ => some null
  | int32 n, .int64 => some (int64 n.toInt64)
  | int32 n, .dateTime => some (dateTime n.toInt64)
  | int32 n, .float64 => some (float64 (.ofInt n.toInt))
  | int64 n, .int32 => (narrow? n).map int32
  | int64 n, .dateTime => some (dateTime n)
  | int64 n, .float64 => some (float64 (.ofInt n.toInt))
  | dateTime n, .int64 => some (int64 n)
  | v, t => if v.dataType? = some t then some v else none

end IndexedTable.Value

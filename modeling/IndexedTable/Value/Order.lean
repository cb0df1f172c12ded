import IndexedTable.Value.Basic

/-! Equality and order of values. Equality holds only within one type, where two floating-point
numbers are equal when they denote the same number. The order compares integers of either width by
number, text by its UTF-8 bytes, and lists element by element; otherwise the types decide. -/

namespace IndexedTable.Value

mutual

/-- Equality of values: never between different types, and by number for floating-point values. -/
def equal : Value → Value → Bool
  | null, null => true
  | boolean a, boolean b => a == b
  | int32 a, int32 b => a == b
  | int64 a, int64 b => a == b
  | float64 a, float64 b => a.equal b
  | text a, text b => a == b
  | dateTime a, dateTime b => a == b
  | bytes a, bytes b => a == b
  | list as, list bs => equalItems as bs
  | _, _ => false

/-- Equality of lists of values, element by element. -/
def equalItems : List Value → List Value → Bool
  | [], [] => true
  | a :: as, b :: bs => equal a b && equalItems as bs
  | _, _ => false

end

instance : BEq Value := ⟨equal⟩

/-- The place of a value's type in the order; null comes first. -/
def rank : Value → Nat
  | null => 0
  | boolean _ => 1
  | int32 _ => 2
  | int64 _ => 3
  | float64 _ => 4
  | text _ => 5
  | dateTime _ => 6
  | bytes _ => 7
  | list _ => 8

mutual

/-- The order of values. Integers of different width compare by number, other values of different
types by rank. -/
def order : Value → Value → Ordering
  | boolean a, boolean b => compare a b
  | int32 a, int32 b => compare a.toInt b.toInt
  | int64 a, int64 b => compare a.toInt b.toInt
  | int32 a, int64 b => compare a.toInt b.toInt
  | int64 a, int32 b => compare a.toInt b.toInt
  | float64 a, float64 b => a.order b
  | text a, text b => compare (utf8 a) (utf8 b)
  | dateTime a, dateTime b => compare a.toInt b.toInt
  | bytes a, bytes b => compare a b
  | list as, list bs => orderItems as bs
  | a, b => compare a.rank b.rank

/-- The lexicographic order of lists of values. -/
def orderItems : List Value → List Value → Ordering
  | [], [] => .eq
  | [], _ :: _ => .lt
  | _ :: _, [] => .gt
  | a :: as, b :: bs => (order a b).then (orderItems as bs)

end

instance : Ord Value := ⟨order⟩

/-- Sorts a list; equal values keep their places relative to each other. -/
def sort (values : List Value) : List Value :=
  values.mergeSort fun a b => (order a b).isLE

end IndexedTable.Value

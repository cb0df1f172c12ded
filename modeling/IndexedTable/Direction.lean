/-! The two directions in which a key column sorts its values and a scan returns its entries. -/

namespace IndexedTable

/-- Ascending or descending. -/
inductive Direction where
  | ascending
  | descending
  deriving DecidableEq, Repr

namespace Direction

/-- A comparison as seen in this direction. -/
def apply : Direction → Ordering → Ordering
  | ascending, result => result
  | descending, result => result.swap

/-- The short name of the direction in declarations. -/
def name : Direction → String
  | ascending => "asc"
  | descending => "desc"

/-- The direction of a short name. -/
def ofName? : String → Option Direction
  | "asc" => some ascending
  | "desc" => some descending
  | _ => none

/-- Whether the direction is descending. -/
def isDescending : Direction → Bool
  | ascending => false
  | descending => true

end Direction

end IndexedTable

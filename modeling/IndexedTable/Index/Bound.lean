import IndexedTable.Key.Basic

/-! Bounds on the movement of a cursor, and the two ways to look for a key. -/

namespace IndexedTable

/-- Where a search for a key ends. -/
inductive SeekMode where
  /-- On the first entry at or after the key. -/
  | atOrAfter
  /-- On the last entry at or before the key. -/
  | atOrBefore
  deriving DecidableEq, Repr

/-- Whether a search in the mode goes towards lower keys. -/
def SeekMode.reversed : SeekMode → Bool
  | .atOrAfter => false
  | .atOrBefore => true

/-- The end of a scan that a bound limits. -/
inductive BoundSide where
  | upper
  | lower
  deriving DecidableEq, Repr

/-- A limit on the keys a cursor may reach. -/
structure ScanBound where
  key : Key
  side : BoundSide
  inclusive : Bool
  deriving DecidableEq, Repr

/-- Whether a key lies on the permitted side of the bound. -/
def ScanBound.admits (bound : ScanBound) (key : Key) : Bool :=
  match bound.side, bound.inclusive with
  | .upper, true => decide (key ≤ bound.key)
  | .upper, false => decide (key < bound.key)
  | .lower, true => decide (bound.key ≤ key)
  | .lower, false => decide (bound.key < key)

end IndexedTable

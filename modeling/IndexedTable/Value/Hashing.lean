import IndexedTable.Value.Order

/-! What a value feeds to a hasher: its variant, then its content, one piece after another. The
pieces of a list follow its length, so that no item is taken for the next one. -/

namespace IndexedTable

/-- One piece of data fed to a hasher. A hasher may mix pieces of different kinds differently. -/
inductive HashPiece where
  | variant (rank : Nat)
  | byte (value : UInt8)
  | int32 (value : Int32)
  | int64 (value : Int64)
  | bits (value : UInt64)
  | text (value : String)
  | length (value : Nat)
  | bytes (value : List UInt8)
  deriving DecidableEq, Repr

namespace Value

mutual

/-- The pieces a value feeds to a hasher. A floating-point number is fed by its bits. -/
def hashed : Value → List HashPiece
  | null => [.variant null.rank]
  | boolean b => [.variant (boolean b).rank, .byte (if b then 1 else 0)]
  | int32 n => [.variant (int32 n).rank, .int32 n]
  | int64 n => [.variant (int64 n).rank, .int64 n]
  | float64 x => [.variant (float64 x).rank, .bits x.bits]
  | text s => [.variant (text s).rank, .text s]
  | dateTime n => [.variant (dateTime n).rank, .int64 n]
  | bytes b => [.variant (bytes b).rank, .length b.length, .bytes b]
  | list items => .variant (list items).rank :: .length items.length :: hashedItems items

/-- The pieces of several values, one after another. -/
def hashedItems : List Value → List HashPiece
  | [] => []
  | item :: rest => hashed item ++ hashedItems rest

end

end Value

end IndexedTable

import IndexedTable.Schema.Table
import IndexedTable.Text.Hex

/-! Keys and bookmarks: byte strings compared byte by byte. A key places a record in an index, a
bookmark names the record. A key layout says how the columns of an index become a key. -/

namespace IndexedTable

open scoped Power

/-- An encoded key. The empty key comes before every other. -/
structure Key where
  bytes : List UInt8
  deriving DecidableEq, Repr

/-- The name of a stored record: the bytes of its key in the clustering index. -/
structure Bookmark where
  bytes : List UInt8
  deriving DecidableEq, Repr

/-- The bytes of a number, most significant first, in the given width. -/
def bigEndian : Nat → Nat → List UInt8
  | 0, _ => []
  | width + 1, n => (n / 256 ^ width).toUInt8 :: bigEndian width n

namespace Key

instance : Inhabited Key := ⟨⟨[]⟩⟩

/-- The byte order of keys. -/
instance : Ord Key := ⟨fun a b => compare a.bytes b.bytes⟩

instance : Std.TransOrd Key := inferInstanceAs (Std.TransCmp (compareOn Key.bytes))

instance : Std.LawfulEqOrd Key where
  eq_of_compare {a b} same := by
    cases a
    cases b
    exact congrArg Key.mk (Std.LawfulEqCmp.eq_of_compare same)

instance : LE Key := ⟨fun a b => (compare a b).isLE = true⟩

instance : LT Key := ⟨fun a b => compare a b = .lt⟩

instance (a b : Key) : Decidable (a ≤ b) := inferInstanceAs (Decidable ((compare a b).isLE = true))

instance (a b : Key) : Decidable (a < b) := inferInstanceAs (Decidable (compare a b = .lt))

/-- Whether a key begins with all bytes of another. -/
def startsWith (key start : Key) : Bool := start.bytes.isPrefixOf key.bytes

/-- The key as it appears in diagnostics. -/
def describe (key : Key) : String := "Key(" ++ Text.hex key.bytes ++ ")"

end Key

namespace Bookmark

/-- The bookmark of no record: the empty one. -/
instance : Inhabited Bookmark := ⟨⟨[]⟩⟩

/-- The byte order of bookmarks. -/
instance : Ord Bookmark := ⟨fun a b => compare a.bytes b.bytes⟩

instance : Std.TransOrd Bookmark := inferInstanceAs (Std.TransCmp (compareOn Bookmark.bytes))

instance : Std.LawfulEqOrd Bookmark where
  eq_of_compare {a b} same := by
    cases a
    cases b
    exact congrArg Bookmark.mk (Std.LawfulEqCmp.eq_of_compare same)

/-- The bookmark of an insertion number. -/
def ofSequence (n : Nat) : Bookmark := ⟨bigEndian 8 n⟩

/-- The bookmark as it appears in diagnostics. -/
def describe (bookmark : Bookmark) : String := "Bookmark(" ++ Text.hex bookmark.bytes ++ ")"

end Bookmark

/-- The type and the direction of one column of a key. -/
structure KeyColumn where
  type : DataType
  direction : Direction
  deriving DecidableEq, Repr

/-- The columns of a key, most significant first. -/
abbrev KeyLayout := List KeyColumn

namespace KeyLayout

/-- The number of columns. -/
def width (layout : KeyLayout) : Nat := layout.length

/-- The key columns of an index over a table. The first column the table does not have is the
error. -/
def ofParts (table : Table) : List KeyPart → Except SchemaError KeyLayout
  | [] => .ok []
  | part :: parts =>
    match table.column? part.column with
    | none => .error (.columnNotFound table.name part.column)
    | some column => do
      let rest ← ofParts table parts
      return ⟨column.type, part.direction⟩ :: rest

end KeyLayout

/-- What a list of key values stands for. -/
inductive KeyLimit where
  /-- The key of exactly these values. -/
  | exact
  /-- A key at or before every key that begins with these values. -/
  | rangeStart
  /-- A key after every key that begins with these values. -/
  | rangeEnd
  /-- Like `rangeStart`, with the last value matched by its leading part. -/
  | partialStart
  /-- Like `rangeEnd`, with the last value matched by its leading part. -/
  | partialEnd
  deriving DecidableEq, Repr

namespace KeyLimit

/-- Whether the last value is matched by its leading part. -/
def isPartial : KeyLimit → Bool
  | partialStart | partialEnd => true
  | _ => false

/-- Whether the key lies after the keys it stands for. -/
def isEnd : KeyLimit → Bool
  | rangeEnd | partialEnd => true
  | _ => false

end KeyLimit

end IndexedTable

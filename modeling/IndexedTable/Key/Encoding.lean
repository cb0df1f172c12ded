import IndexedTable.Index.Error
import IndexedTable.Key.Basic
import IndexedTable.Value.Text

/-! The encoding of values as a key whose byte order is the order of the values. Each column
contributes a segment: a tag, lower for null, and the value in a form that compares byte by byte.
A descending column complements its segment. Text and binary values are escaped and terminated, so
that a shorter value comes before its extensions. -/

namespace IndexedTable

open scoped Power

/-- The pattern of a floating-point number as an unsigned number of the same order. Both zeros
share the pattern of the positive one. -/
def Binary64.ordinal (x : Binary64) : Nat :=
  if x.magnitude = 0 then 2 ^ (63 : Nat)
  else if x.negative then 2 ^ (64 : Nat) - 1 - x.bits.toNat
  else x.bits.toNat + 2 ^ (63 : Nat)

namespace KeyColumn

/-- The tag of a segment that holds null. -/
def nullTag : UInt8 := 0x01

/-- The tag of a segment that holds a value. -/
def valueTag : UInt8 := 0x02

/-- Escapes the bytes that a terminator or the end of a range consists of. -/
def escape (bytes : List UInt8) : List UInt8 :=
  bytes.flatMap fun b => if b = 0x00 then [0x00, 0x01] else if b = 0xff then [0xff, 0x00] else [b]

/-- Ends the segment of a text or binary value, less than every continuation of it. -/
def terminator : List UInt8 := [0x00, 0x00]

/-- The ascending segment of a coerced value. A value matched by its leading part stays open.
Lists have no segment. -/
def segment? (isOpen : Bool) : Value → Option (List UInt8)
  | .null => some [nullTag]
  | .boolean b => some [valueTag, if b then 1 else 0]
  | .int32 n => some (valueTag :: bigEndian 4 (n.toInt + 2 ^ (31 : Nat)).toNat)
  | .int64 n => some (valueTag :: bigEndian 8 (n.toInt + 2 ^ (63 : Nat)).toNat)
  | .dateTime n => some (valueTag :: bigEndian 8 (n.toInt + 2 ^ (63 : Nat)).toNat)
  | .float64 x => some (valueTag :: bigEndian 8 x.ordinal)
  | .text s => some (valueTag :: escape (Value.utf8 s) ++ if isOpen then [] else terminator)
  | .bytes b => some (valueTag :: escape b ++ if isOpen then [] else terminator)
  | .list _ => none

/-- A segment as its column stores it: a descending column complements every byte. -/
def directed (column : KeyColumn) (segment : List UInt8) : List UInt8 :=
  match column.direction with
  | .ascending => segment
  | .descending => segment.map (~~~ ·)

/-- The segment of a value in a column, after conversion to the type of the column. -/
def encode (column : KeyColumn) (isOpen : Bool) (value : Value) :
    Except IndexError (List UInt8) :=
  match (value.coerce? column.type).bind (segment? isOpen) with
  | some segment => .ok (column.directed segment)
  | none => .error (.keyTypeMismatch column.type value.render)

end KeyColumn

namespace KeyLayout

/-- Closes the key at the end of a range; no segment begins with it. -/
def rangeEndMark : List UInt8 := [0xff, 0xff, 0xff]

/-- The segments of the values, of which the last is left open if it is matched by its leading
part. The first value that has no segment decides the error. -/
def segments (isPartial : Bool) : KeyLayout → List Value → Except IndexError (List UInt8)
  | column :: columns, value :: values => do
    let isOpen := isPartial && values.isEmpty
    if isOpen && !column.type.supportsPartialMatch then
      throw (.partialKeyUnsupported column.type)
    let first ← column.encode isOpen value
    let others ← segments isPartial columns values
    return first ++ others
  | _, _ => .ok []

/-- The key of the values of the leading columns. -/
def makeKey (layout : KeyLayout) (values : List Value) (limit : KeyLimit) :
    Except IndexError Key := do
  if layout.width < values.length then
    throw (.tooManyKeyValues layout.width values.length)
  if limit.isPartial && values.isEmpty then
    throw .emptyPartialKey
  let bytes ← layout.segments limit.isPartial values
  return ⟨bytes ++ if limit.isEnd then rangeEndMark else []⟩

end KeyLayout

end IndexedTable

import IndexedTable.Index.Ordered
import IndexedTable.Key.Encoding

/-! The indices of a store, and the keys that a row has in each. A row has one key in an index
over single-valued columns, one for each element of a multi-valued column, and in a tuple index
one for each suffix of each element. -/

namespace IndexedTable

/-- The values a column contributes: the elements of a list, or the value itself. -/
def Value.elements : Value → List Value
  | .list items => items
  | value => [value]

/-- The proper suffixes of a list that are at least so long, longest first. -/
def longSuffixes {α : Type} (minLength : Nat) : List α → List (List α)
  | [] => []
  | _ :: rest => if minLength ≤ rest.length then rest :: longSuffixes minLength rest else []

/-- The value and its proper suffixes of at least the given length, in characters or bytes. The
value itself always counts, so that the empty text is a suffix too; other types have no suffixes.
-/
def Value.suffixes (minLength : Nat) : Value → List Value
  | .text s => .text s :: (longSuffixes minLength s.toList).map fun chars => .text (.ofList chars)
  | .bytes b => .bytes b :: (longSuffixes minLength b).map .bytes
  | _ => []

/-- An index of a store with its place in the rows of the table. -/
structure Slot where
  definition : IndexDefinition
  /-- The places of the key columns in a row. -/
  positions : List Nat
  /-- The place of the multi-valued column in the key. -/
  multiValued : Option Nat
  index : OrderedIndex

namespace Slot

/-- The columns of a key, in key order. -/
def columnsOf (table : Table) : List KeyPart → Except SchemaError (List Column)
  | [] => .ok []
  | part :: parts =>
    match table.column? part.column with
    | none => .error (.columnNotFound table.name part.column)
    | some column => do
      let rest ← columnsOf table parts
      return column :: rest

/-- The place of the last multi-valued column. -/
def multiValuedPlace (columns : List Column) : Option Nat :=
  (columns.mapIdx fun place column => (place, column.multiValued)).reverse.findSome? fun entry =>
    if entry.2 then some entry.1 else none

/-- An empty index of a table. Only the clustering index is unique. -/
def create (table : Table) (definition : IndexDefinition) : Except IndexError Slot := do
  let layout ← (KeyLayout.ofParts table definition.columns).mapError .schema
  let columns ← (columnsOf table definition.columns).mapError .schema
  return {
    definition := definition
    positions := columns.map (·.position)
    multiValued := multiValuedPlace columns
    index := .empty definition.name layout definition.primary }

/-- The values of the key columns in a row; a place beyond the row counts as null. -/
def keyColumns (slot : Slot) (row : Row) : List Value :=
  slot.positions.map fun place => row.getD place .null

/-- The value lists whose keys a row has in the index. A row whose list is empty is kept under
null. -/
def keyValues (slot : Slot) (row : Row) : List (List Value) :=
  let values := slot.keyColumns row
  if slot.definition.isTuple then
    (values.headD .null).elements.flatMap fun element =>
      (element.suffixes (max 1 slot.definition.minLength)).map fun suffix => [suffix]
  else
    match slot.multiValued with
    | none => [values]
    | some place =>
      let elements := (values.getD place .null).elements
      let elements := if elements.isEmpty then [.null] else elements
      elements.map fun element => values.set place element

/-- The keys of a row in the index, each once. -/
def keysFor (slot : Slot) (row : Row) : Except IndexError KeySet := do
  let keys ← (slot.keyValues row).mapM fun values => slot.index.layout.makeKey values .exact
  return .ofList keys

/-- Stores entries of one record. Entries before the first failing one stay. -/
def addKeys (bookmark : Bookmark) : List Key → Slot → Outcome Slot Unit
  | [], slot => (.ok (), slot)
  | key :: keys, slot =>
    match slot.index.insert ⟨key, bookmark⟩ with
    | (.error e, index) => (.error e, { slot with index := index })
    | (.ok (), index) => addKeys bookmark keys { slot with index := index }

/-- Removes entries of one record. -/
def eraseKeys (slot : Slot) (bookmark : Bookmark) (keys : List Key) : Slot :=
  { slot with index := keys.foldl (fun index key => index.erase ⟨key, bookmark⟩) slot.index }

/-- Removes every entry. -/
def clear (slot : Slot) : Slot := { slot with index := slot.index.clear }

end Slot

end IndexedTable

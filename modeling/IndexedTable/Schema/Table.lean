import IndexedTable.Schema.Column
import IndexedTable.Schema.Error
import IndexedTable.Schema.Index
import IndexedTable.Value.Coercion

/-! Tables: named columns and the indices over them, in order of declaration. A row conforms to a
table when each of its values can be stored in the column at its place. -/

namespace IndexedTable

/-- The values of a record, in the order of the table's columns. -/
abbrev Row := List Value

/-- The row with another value at a place, or nothing if the row does not reach so far. -/
def Row.replace? (row : Row) (place : Nat) (value : Value) : Option Row :=
  if place < row.length then some (row.set place value) else none

/-- The declaration of a table. -/
structure Table where
  name : String
  columns : List Column
  indices : List IndexDefinition
  deriving Repr

/-- One index that covers a column. -/
structure IndexCoverage where
  index : String
  /-- The place of the column in the key. -/
  position : Nat
  direction : Direction
  primary : Bool
  deriving Repr

namespace Table

/-- The column of a name. -/
def column? (table : Table) (name : String) : Option Column :=
  table.columns.find? fun column => column.name == name

/-- The place of the column of a name. -/
def columnPosition? (table : Table) (name : String) : Option Nat :=
  table.columns.findIdx? fun column => column.name == name

/-- The index of a name. -/
def index? (table : Table) (name : String) : Option IndexDefinition :=
  table.indices.find? fun index => index.name == name

/-- The clustering index, if one is declared. -/
def primaryKey? (table : Table) : Option IndexDefinition :=
  table.indices.find? (·.primary)

/-- The indices whose key contains a column, in order of declaration. -/
def indicesCovering (table : Table) (column : String) : List IndexCoverage :=
  table.indices.filterMap fun index =>
    (index.columns.findIdx? fun part => part.column == column).bind fun position =>
      index.columns[position]?.map fun part =>
        { index := index.name, position, direction := part.direction, primary := index.primary }

end Table

/-- A value for one place of a column. Null needs a column that accepts it, or is an element of a
list. -/
def Column.conformScalar (column : Column) (value : Value) : Except SchemaError Value :=
  if value.isNull && !column.nullable && !column.multiValued then
    .error (.nullConstraint column.name)
  else
    match value.coerce? column.type with
    | some coerced => .ok coerced
    | none => .error (.typeMismatch column.name column.type (.value value.dataType?))

/-- The elements of a multi-valued column, the first one that does not fit deciding the error. -/
def Column.conformItems (column : Column) : List Value → Except SchemaError (List Value)
  | [] => .ok []
  | item :: rest => do
    let first ← column.conformScalar item
    let others ← column.conformItems rest
    return first :: others

/-- A value as the column stores it. A multi-valued column stores a list, and an empty one for
null. -/
def Column.conform (column : Column) (value : Value) : Except SchemaError Value :=
  if column.multiValued then
    match value with
    | .list items => (column.conformItems items).map .list
    | .null => .ok (.list [])
    | other => .error (.typeMismatch column.name column.type (.value other.dataType?))
  else column.conformScalar value

namespace Table

/-- The values of a row, each as its column stores it. -/
def conformValues : List Column → List Value → Except SchemaError (List Value)
  | column :: columns, value :: values => do
    let first ← column.conform value
    let others ← conformValues columns values
    return first :: others
  | _, _ => .ok []

/-- A row as the table stores it: as long as the table is wide, and each value as its column stores
it. The first column that does not fit decides the error. -/
def conformRow (table : Table) (row : Row) : Except SchemaError Row :=
  if row.length ≠ table.columns.length then
    .error (.rowShape table.name table.columns.length row.length)
  else conformValues table.columns row

end Table

end IndexedTable

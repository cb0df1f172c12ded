import IndexedTable.Value.Basic

/-! The columns of a table. A multi-valued column holds a list whose elements have the column's
type. -/

namespace IndexedTable

/-- The declaration of a column. -/
structure Column where
  name : String
  /-- The type of the value, or of each element of a multi-valued column. -/
  type : DataType
  nullable : Bool
  multiValued : Bool
  /-- The place of the column in its table; zero until the table is complete. -/
  position : Nat
  deriving Repr

namespace Column

/-- A single-valued column that accepts null only if its type does by itself. -/
def ofType (name : String) (type : DataType) : Column where
  name := name
  type := type
  nullable := type.nullableByDefault
  multiValued := false
  position := 0

/-- The value stored when a record says nothing about the column. -/
def defaultValue (column : Column) : Value :=
  if column.multiValued then .list []
  else if column.nullable then .null
  else .ofType column.type

/-- Columns are equal when they agree in name, type and multiplicity, wherever they stand and
whether or not they accept null. -/
def equal (a b : Column) : Bool :=
  a.name == b.name && decide (a.type = b.type) && a.multiValued == b.multiValued

instance : BEq Column := ⟨equal⟩

end Column

end IndexedTable

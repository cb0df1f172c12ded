import IndexedTable.Direction

/-! Definitions of indices. The columns of an index, each with a direction, form its key; a tuple
index holds one entry for each suffix of a text or binary column and answers containment. -/

namespace IndexedTable

/-- How many entries a record has in an index. -/
inductive IndexKind where
  /-- One entry, or one for each element of a multi-valued column. -/
  | standard
  /-- One entry for each suffix of each element. -/
  | tuple
  deriving DecidableEq, Repr

/-- A column in a key. -/
structure KeyPart where
  column : String
  direction : Direction
  deriving DecidableEq, Repr

/-- The definition of an index. -/
structure IndexDefinition where
  name : String
  /-- The table of the index; empty until the definition is part of one. -/
  table : String
  /-- The columns of the key, most significant first. -/
  columns : List KeyPart
  /-- Whether the index is the clustering index of its table. -/
  primary : Bool
  kind : IndexKind
  /-- Shorter suffixes have no entry in a tuple index, the whole value apart. -/
  minLength : Nat
  deriving Repr

namespace IndexDefinition

/-- A secondary index that is no part of a table yet. -/
def standard (name : String) (columns : List KeyPart) : IndexDefinition where
  name := name
  table := ""
  columns := columns
  primary := false
  kind := .standard
  minLength := 1

/-- The name of the index, qualified by that of its table. -/
def qualifiedName (index : IndexDefinition) : String := index.table ++ "." ++ index.name

/-- The number of columns in the key. -/
def width (index : IndexDefinition) : Nat := index.columns.length

/-- The place of a column in the key. -/
def position? (index : IndexDefinition) (column : String) : Option Nat :=
  index.columns.findIdx? fun part => part.column == column

/-- Whether the index holds suffixes. -/
def isTuple (index : IndexDefinition) : Bool := decide (index.kind = .tuple)

/-- Definitions are equal when they have the same name in the same table. -/
def equal (a b : IndexDefinition) : Bool := a.name == b.name && a.table == b.table

instance : BEq IndexDefinition := ⟨equal⟩

end IndexDefinition

end IndexedTable

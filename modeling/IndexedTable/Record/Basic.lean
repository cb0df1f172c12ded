import IndexedTable.Cursor.Basic

/-! Typed records: a table layout together with the way between a record and a row of that table. -/

namespace IndexedTable

/-- A type whose values are kept as rows of a table. -/
class Record (α : Type) where
  /-- The table of the records. -/
  table : Except SchemaError Table
  /-- The values of a record, in the order of the columns. -/
  toRow : α → Row
  /-- The record that a row describes. -/
  ofRow : Row → Except SchemaError α

namespace Store

/-- The empty store of a record type. -/
def ofRecord (α : Type) [Record α] : Except IndexError Store := do
  let table ← (Record.table α).mapError IndexError.schema
  create table

/-- Stores a new record. -/
def insertRecord {α : Type} [Record α] (store : Store) (record : α) : Outcome Store Bookmark :=
  store.insert (Record.toRow record)

/-- The record of a bookmark. -/
def record {α : Type} [Record α] (store : Store) (bookmark : Bookmark) : Except IndexError α :=
  match store.get? bookmark with
  | some row => (Record.ofRow row).mapError .schema
  | none => .error .recordNotFound

end Store

/-- The record at the current entry. -/
def Cursor.record {α : Type} [Record α] (cursor : Cursor) : Except IndexError α := do
  let row ← cursor.row
  (Record.ofRow row).mapError .schema

/-- The records at the current entry and the entries after it, no more than the limit allows. -/
def Cursor.records {α : Type} [Record α] (cursor : Cursor) : Nat → List (Except IndexError α)
  | 0 => []
  | limit + 1 =>
    if cursor.current.isSome then cursor.record :: cursor.next.records limit else []

end IndexedTable

import IndexedTable.Record.Basic
import IndexedTable.Schema.Draft

/-! Books, a record type: a number, an author and a year, to be found by number or by author with
the latest year first. -/

namespace IndexedTable

/-- A book. -/
structure Book where
  id : Int64
  author : String
  year : Int32
  deriving DecidableEq, Repr

namespace Book

/-- The table of books. -/
def table : Except SchemaError Table :=
  let declared := Table.declare "books" [
    .column "id" .int64,
    .column "author" .text,
    .column "year" .int32,
    .primaryKey ["id"],
    .orderedIndex "ixAuthorYear" [⟨"author", .ascending⟩, ⟨"year", .descending⟩]]
  declared.mapError (·.error)

/-- A field of a book in a row; a value of another type counts as missing. -/
def field {α : Type} (row : Row) (place : Nat) (name : String) (type : DataType)
    (read : Value → Option α) : Except SchemaError α :=
  match row[place]?.bind read with
  | some value => .ok value
  | none => .error (.typeMismatch name type .missing)

/-- The book of a row. The first field that is missing decides the error. -/
def ofRow (row : Row) : Except SchemaError Book := do
  let id ← field row 0 "id" .int64 Value.asInt64?
  let author ← field row 1 "author" .text Value.asText?
  let year ← field row 2 "year" .int32 Value.asInt32?
  return ⟨id, author, year⟩

instance : Record Book where
  table := table
  toRow book := [.int64 book.id, .text book.author, .int32 book.year]
  ofRow := ofRow

end Book

end IndexedTable

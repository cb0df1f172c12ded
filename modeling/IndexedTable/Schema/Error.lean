import IndexedTable.DataType

/-! What can be wrong with a table declaration, with a row for a table, or with a row read as a
typed record. -/

namespace IndexedTable

/-- A rule of table declarations that a declaration breaks. -/
inductive SchemaFault where
  | emptyName
  | nameStart (name : String)
  | nameCharacters (name : String)
  | duplicateColumn (column : String)
  | duplicateIndex (index : String)
  | indexWithoutColumns (index : String)
  | secondPrimaryKey
  | repeatedColumn (column index : String)
  | multiValuedPrimaryKey
  | severalMultiValued (index : String)
  | tupleColumn (index : String)
  | tableWithoutColumns (table : String)
  deriving DecidableEq, Repr

/-- The wording of a broken rule. -/
def SchemaFault.message : SchemaFault → String
  | emptyName => "Name cannot be empty"
  | nameStart name => "Name must start with letter or underscore: " ++ name
  | nameCharacters name => "Name contains invalid characters: " ++ name
  | duplicateColumn column => "Column already exists: " ++ column
  | duplicateIndex index => "Index already exists: " ++ index
  | indexWithoutColumns index => "Index has no columns: " ++ index
  | secondPrimaryKey => "Table already has a primary key"
  | repeatedColumn column index => "Column " ++ column ++ " appears twice in index " ++ index
  | multiValuedPrimaryKey => "Primary key cannot contain a multi-valued column"
  | severalMultiValued index => "Index " ++ index ++ " has more than one multi-valued column"
  | tupleColumn index =>
    "Tuple index " ++ index ++ " must cover a single String or Bytes column"
  | tableWithoutColumns table => "Table has no columns: " ++ table

/-- What stood where a value of a column's type was expected. -/
inductive Found where
  /-- A value of another type, or one without a type. -/
  | value (type : Option DataType)
  /-- No usable value at all. -/
  | missing
  deriving DecidableEq, Repr

/-- The wording of what was found. -/
def Found.describe : Found → String
  | value (some type) => "Some(" ++ type.name ++ ")"
  | value none => "None"
  | missing => "missing"

/-- A declaration, a row or a record that does not fit. -/
inductive SchemaError where
  | typeMismatch (column : String) (expected : DataType) (found : Found)
  | nullConstraint (column : String)
  | invalid (fault : SchemaFault)
  | columnNotFound (table column : String)
  | rowShape (table : String) (expected got : Nat)
  deriving DecidableEq, Repr

/-- The short name of the kind of error. -/
def SchemaError.kind : SchemaError → String
  | typeMismatch _ _ _ => "TypeMismatch"
  | nullConstraint _ => "NullConstraint"
  | invalid _ => "InvalidSchema"
  | columnNotFound _ _ => "ColumnNotFound"
  | rowShape _ _ _ => "RowShape"

/-- The wording of a schema error. -/
def SchemaError.message : SchemaError → String
  | typeMismatch column expected found =>
    "Type mismatch on column " ++ column ++ ": expected " ++ expected.name ++ ", got " ++
      found.describe
  | nullConstraint column => "Null constraint violation on column: " ++ column
  | invalid fault => "Invalid schema: " ++ fault.message
  | columnNotFound table column => "Column " ++ column ++ " not found in table " ++ table
  | rowShape table expected got =>
    "Row for table " ++ table ++ " has " ++ toString got ++ " values, expected " ++
      toString expected

end IndexedTable

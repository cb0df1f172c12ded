import IndexedTable.Schema.Error

/-! What can go wrong in encoding a key, in storing a record and in reading through a cursor. -/

namespace IndexedTable

/-- A key, a record or a cursor position that is not available. -/
inductive IndexError where
  | duplicateKey (index : String)
  | noCurrentEntry
  | unknownIndex (name : String)
  | tooManyKeyValues (width count : Nat)
  /-- The value is held in its written form. -/
  | keyTypeMismatch (expected : DataType) (value : String)
  | partialKeyUnsupported (type : DataType)
  | emptyPartialKey
  | recordNotFound
  | schema (error : SchemaError)
  deriving DecidableEq, Repr

/-- The short name of the kind of error; a schema error keeps its own. -/
def IndexError.kind : IndexError → String
  | duplicateKey _ => "DuplicateKey"
  | noCurrentEntry => "NoCurrentEntry"
  | unknownIndex _ => "UnknownIndex"
  | tooManyKeyValues _ _ => "TooManyKeyValues"
  | keyTypeMismatch _ _ => "KeyTypeMismatch"
  | partialKeyUnsupported _ => "PartialKeyUnsupported"
  | emptyPartialKey => "EmptyPartialKey"
  | recordNotFound => "RecordNotFound"
  | schema error => "Schema." ++ error.kind

/-- The wording of an index error. -/
def IndexError.message : IndexError → String
  | duplicateKey index => "Duplicate key in index " ++ index
  | noCurrentEntry => "Cursor has no current entry"
  | unknownIndex name => "Unknown index: " ++ name
  | tooManyKeyValues width count =>
    "Key has " ++ toString count ++ " values but the index has " ++ toString width ++ " columns"
  | keyTypeMismatch expected value =>
    "Value " ++ value ++ " cannot be used as a " ++ expected.name ++ " key column"
  | partialKeyUnsupported type =>
    "Partial key matching is not supported on " ++ type.name ++ " columns"
  | emptyPartialKey => "Partial key limit needs at least one value"
  | recordNotFound => "Record not found"
  | schema error => error.message

end IndexedTable

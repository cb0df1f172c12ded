/-! The types a column can declare. A type decides the form of a stored value, its default, and
whether a key column of that type can be matched by its leading part only. -/

namespace IndexedTable

/-- The declared type of a column; of each element, for a column that holds a list. -/
inductive DataType where
  | boolean
  | int32
  | int64
  | float64
  | text
  | dateTime
  | bytes
  deriving DecidableEq, Repr

namespace DataType

/-- The spelling of the type in messages and descriptions. -/
def name : DataType → String
  | boolean => "Boolean"
  | int32 => "Int32"
  | int64 => "Int64"
  | float64 => "Float64"
  | text => "String"
  | dateTime => "DateTime"
  | bytes => "Bytes"

/-- Every type, in order of declaration. -/
def all : List DataType := [boolean, int32, int64, float64, text, dateTime, bytes]

/-- The type of a spelling. -/
def ofName? (spelling : String) : Option DataType := all.find? fun type => type.name == spelling

/-- The written form of the type's default value. -/
def defaultText : DataType → String
  | boolean => "false"
  | int32 | int64 | dateTime => "0"
  | float64 => "0.0"
  | text => "\"\""
  | bytes => "[]"

/-- Only binary columns accept null without being told so. -/
def nullableByDefault : DataType → Bool
  | bytes => true
  | _ => false

/-- Values of these types differ in length. -/
def variableLength : DataType → Bool
  | text | bytes => true
  | _ => false

/-- A key column can be matched by its leading part exactly when its values differ in length. -/
def supportsPartialMatch (type : DataType) : Bool := type.variableLength

/-- Values of these types are whole numbers. -/
def isInteger : DataType → Bool
  | int32 | int64 | dateTime => true
  | _ => false

end DataType

end IndexedTable

import IndexedTable.Binary64.Basic
import IndexedTable.DataType

/-! The values a record holds. Every value but null and a list has a type; a list holds the
elements of a multi-valued column. -/

namespace IndexedTable

/-- The content of one field of a record. Times count milliseconds, and floating-point numbers are
held by their bits. -/
inductive Value where
  | null
  | boolean (value : Bool)
  | int32 (value : Int32)
  | int64 (value : Int64)
  | float64 (value : Binary64)
  | text (value : String)
  | dateTime (value : Int64)
  | bytes (value : List UInt8)
  | list (items : List Value)

namespace Value

instance : Inhabited Value := ⟨null⟩

/-- The type of a value; null and lists have none. -/
def dataType? : Value → Option DataType
  | null | list _ => none
  | boolean _ => some .boolean
  | int32 _ => some .int32
  | int64 _ => some .int64
  | float64 _ => some .float64
  | text _ => some .text
  | dateTime _ => some .dateTime
  | bytes _ => some .bytes

/-- Whether the value is null. -/
def isNull : Value → Bool
  | null => true
  | _ => false

/-- The truth value of a Boolean. -/
def asBoolean? : Value → Option Bool
  | boolean b => some b
  | _ => none

/-- The number of a 32-bit integer. -/
def asInt32? : Value → Option Int32
  | int32 n => some n
  | _ => none

/-- The number of a 64-bit integer. -/
def asInt64? : Value → Option Int64
  | int64 n => some n
  | _ => none

/-- The number of a floating-point value. -/
def asFloat64? : Value → Option Binary64
  | float64 x => some x
  | _ => none

/-- The characters of a text. -/
def asText? : Value → Option String
  | text s => some s
  | _ => none

/-- The milliseconds of a time. -/
def asDateTime? : Value → Option Int64
  | dateTime n => some n
  | _ => none

/-- The bytes of a binary value. -/
def asBytes? : Value → Option (List UInt8)
  | bytes b => some b
  | _ => none

/-- The elements of a list. -/
def asList? : Value → Option (List Value)
  | list items => some items
  | _ => none

/-- The value a column of the type holds when a record says nothing. Binary columns accept null and
start with it. -/
def ofType : DataType → Value
  | .boolean => boolean false
  | .int32 => int32 0
  | .int64 => int64 0
  | .float64 => float64 .zero
  | .text => text ""
  | .dateTime => dateTime 0
  | .bytes => null

/-- The bytes of a text in UTF-8. -/
def utf8 (s : String) : List UInt8 := s.toByteArray.data.toList

mutual

/-- Structural identity of values, floating-point numbers by their bits. -/
def identical : Value → Value → Bool
  | null, null => true
  | boolean a, boolean b => a == b
  | int32 a, int32 b => a == b
  | int64 a, int64 b => a == b
  | float64 a, float64 b => decide (a = b)
  | text a, text b => a == b
  | dateTime a, dateTime b => a == b
  | bytes a, bytes b => a == b
  | list a, list b => identicalItems a b
  | _, _ => false

/-- Structural identity of lists of values. -/
def identicalItems : List Value → List Value → Bool
  | [], [] => true
  | a :: as, b :: bs => identical a b && identicalItems as bs
  | _, _ => false

end

mutual

theorem identical_iff : ∀ a b : Value, identical a b = true ↔ a = b
  | null, b => by cases b <;> simp [identical]
  | boolean _, b => by cases b <;> simp [identical]
  | int32 _, b => by cases b <;> simp [identical]
  | int64 _, b => by cases b <;> simp [identical]
  | float64 _, b => by cases b <;> simp [identical]
  | text _, b => by cases b <;> simp [identical]
  | dateTime _, b => by cases b <;> simp [identical]
  | bytes _, b => by cases b <;> simp [identical]
  | list as, b => by cases b <;> simp [identical, identicalItems_iff as]

theorem identicalItems_iff : ∀ as bs : List Value, identicalItems as bs = true ↔ as = bs
  | [], bs => by cases bs <;> simp [identicalItems]
  | a :: as, bs => by cases bs <;> simp [identicalItems, identical_iff a, identicalItems_iff as]

end

instance : DecidableEq Value := fun a b => decidable_of_iff _ (identical_iff a b)

end Value

end IndexedTable

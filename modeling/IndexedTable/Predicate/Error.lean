import IndexedTable.Index.Error

/-! What keeps a predicate from becoming a plan, and a plan from becoming a filter. -/

namespace IndexedTable

/-- Why a part of a predicate cannot be answered by an index range. -/
inductive Unanswerable where
  | containsOffField
  | notAValue
  | twoFields
  | noField
  | strict
  | noRange
  | nestedContains
  | disjunction
  | noConjunction
  | descendingContains
  | noConditions
  deriving DecidableEq, Repr

/-- The wording of a reason. -/
def Unanswerable.message : Unanswerable → String
  | containsOffField => "contains must be called on a field"
  | notAValue => "values must be literals, arguments or thunks"
  | twoFields => "both sides reference a field"
  | noField => "neither side references a field"
  | strict =>
    "strict comparisons are not supported; use an inclusive bound and skip the boundary value"
  | noRange => "only ==, <= and >= can be answered by an index range"
  | nestedContains => "contains is only supported as the single top-level condition"
  | disjunction => "disjunctions cannot be answered by a single index range"
  | noConjunction => "expected a conjunction of field comparisons"
  | descendingContains => "containment scans only run in ascending order"
  | noConditions => "no conditions to answer"

/-- A predicate, or a request for an index, that has no plan. -/
inductive CompileError where
  /-- The part of the predicate is held in its written form. -/
  | unsupported (text : String) (reason : Unanswerable)
  | unknownField (field : String)
  | noCoveringIndex (fields : List String)
  | noSuitableIndex (fields : List String)
  | unknownIndex (index : String)
  | tooManyValues (index : String) (width count : Nat)
  | incompatibleColumnType (column : String) (type : DataType)
  | noTupleIndex (field : String)
  deriving DecidableEq, Repr

/-- The wording for more values than an index has columns. -/
def valueCountMessage (index : String) (width count : Nat) : String :=
  "Index " ++ index ++ " has " ++ toString width ++ " columns, got " ++ toString count ++ " values"

/-- The short name of the kind of error. -/
def CompileError.kind : CompileError → String
  | unsupported _ _ => "UnsupportedExpression"
  | unknownField _ => "UnknownField"
  | noCoveringIndex _ => "NoCoveringIndex"
  | noSuitableIndex _ => "NoSuitableIndex"
  | unknownIndex _ => "UnknownIndex"
  | tooManyValues _ _ _ => "TooManyValues"
  | incompatibleColumnType _ _ => "IncompatibleColumnType"
  | noTupleIndex _ => "NoTupleIndex"

/-- The wording of a compile error. -/
def CompileError.message : CompileError → String
  | unsupported text reason => "Unsupported expression \x60" ++ text ++ "\x60: " ++ reason.message
  | unknownField field => "Unknown field: " ++ field
  | noCoveringIndex fields => "No single index covers all of: " ++ ", ".intercalate fields
  | noSuitableIndex fields => "No suitable index found for: " ++ ", ".intercalate fields
  | unknownIndex index => "Unknown index: " ++ index
  | tooManyValues index width count => valueCountMessage index width count
  | incompatibleColumnType column type =>
    "Column " ++ column ++ " of type " ++ type.name ++ " does not support prefix matching"
  | noTupleIndex field => "No tuple index starts with field " ++ field

/-- An operation that some kinds of scan do not offer. -/
inductive FilterOperation where
  | setReversed
  | estimateCount
  deriving DecidableEq, Repr

/-- The name of the operation in messages. -/
def FilterOperation.name : FilterOperation → String
  | setReversed => "set_reversed"
  | estimateCount => "estimate_count"

/-- A plan that cannot be bound, or a filter that cannot do what is asked. -/
inductive FilterError where
  | valueCountOutOfBounds (index : String) (width count : Nat)
  | notOffered (operation : FilterOperation) (strategy : String)
  | missingArgument (place supplied : Nat)
  | cursor (error : IndexError)
  deriving DecidableEq, Repr

/-- The short name of the kind of error; an error of a cursor keeps its own. -/
def FilterError.kind : FilterError → String
  | valueCountOutOfBounds _ _ _ => "ValueCountOutOfBounds"
  | notOffered _ _ => "Unsupported"
  | missingArgument _ _ => "MissingArgument"
  | cursor error => "Cursor." ++ error.kind

/-- The wording of a filter error. -/
def FilterError.message : FilterError → String
  | valueCountOutOfBounds index width count => valueCountMessage index width count
  | notOffered operation strategy =>
    operation.name ++ " is not supported by the " ++ strategy ++ " strategy"
  | missingArgument place supplied =>
    "Argument " ++ toString place ++ " was referenced but only " ++ toString supplied ++
      " were supplied"
  | cursor error => error.message

end IndexedTable

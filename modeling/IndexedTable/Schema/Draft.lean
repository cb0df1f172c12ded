import IndexedTable.Schema.Table

/-! Declaring a table step by step. Each step checks the rules that tables obey: proper and distinct
names, keys over declared columns without repetition, at most one multi-valued column in a key and
none in the clustering key, one clustering key, and tuple indices over a single text or binary
column. -/

namespace IndexedTable

/-- A table under declaration. -/
structure TableDraft where
  name : String
  columns : List Column
  indices : List IndexDefinition
  deriving Repr

/-- One step of a declaration. -/
inductive Declaration where
  | column (name : String) (type : DataType)
  | multiValued (name : String) (type : DataType)
  | nullable (names : List String)
  | primaryKey (columns : List String)
  | index (name : String) (columns : List String)
  | orderedIndex (name : String) (columns : List KeyPart)
  | tupleIndex (name column : String) (minLength : Nat)
  | definition (index : IndexDefinition)
  deriving Repr

/-- A name starts with a letter or an underscore and goes on with letters, digits and underscores,
all of them ASCII. -/
def checkName (name : String) : Except SchemaError Unit :=
  match name.toList with
  | [] => .error (.invalid .emptyName)
  | first :: rest =>
    if !first.isAlpha && first != '_' then .error (.invalid (.nameStart name))
    else if rest.all fun c => c.isAlphanum || c == '_' then .ok ()
    else .error (.invalid (.nameCharacters name))

/-- The name with its first letter in upper case. -/
def capitalized (name : String) : String :=
  match name.toList with
  | [] => ""
  | first :: rest => String.ofList (first.toUpper :: rest)

/-- Key parts in ascending direction. -/
def KeyPart.ascending (columns : List String) : List KeyPart :=
  columns.map fun column => ⟨column, .ascending⟩

namespace TableDraft

/-- A table without columns and indices. -/
def start (name : String) : Except SchemaError TableDraft := do
  checkName name
  return ⟨name, [], []⟩

/-- Appends a column of a new name. -/
def addColumn (draft : TableDraft) (column : Column) : Except SchemaError TableDraft := do
  checkName column.name
  if draft.columns.any fun other => other.name == column.name then
    throw (.invalid (.duplicateColumn column.name))
  return { draft with columns := draft.columns ++ [column] }

/-- Lets the column of a name accept null. Unknown names are skipped. -/
def addNullable (draft : TableDraft) (name : String) : TableDraft :=
  { draft with
    columns := draft.columns.map fun column =>
      if column.name == name then { column with nullable := true } else column }

/-- The number of multi-valued columns in a key over the columns declared so far. The first part
that repeats an earlier one or names no column decides the error. -/
def countMultiValued (draft : TableDraft) (index : String) :
    List String → List KeyPart → Except SchemaError Nat
  | _, [] => .ok 0
  | seen, part :: rest =>
    if seen.contains part.column then .error (.invalid (.repeatedColumn part.column index))
    else
      match draft.columns.find? fun column => column.name == part.column with
      | none => .error (.columnNotFound draft.name part.column)
      | some column => do
        let others ← draft.countMultiValued index (part.column :: seen) rest
        return if column.multiValued then others + 1 else others

/-- Whether a key consists of one column whose values have suffixes. -/
def supportsTuple (draft : TableDraft) (parts : List KeyPart) : Bool :=
  match parts with
  | [part] =>
    match draft.columns.find? fun column => column.name == part.column with
    | some column => column.type.supportsPartialMatch
    | none => false
  | _ => false

/-- Appends an index after checking it against the columns and indices declared so far. -/
def addIndex (draft : TableDraft) (index : IndexDefinition) : Except SchemaError TableDraft := do
  checkName index.name
  if draft.indices.any fun other => other.name == index.name then
    throw (.invalid (.duplicateIndex index.name))
  if index.columns.isEmpty then
    throw (.invalid (.indexWithoutColumns index.name))
  if index.primary && draft.indices.any (·.primary) then
    throw (.invalid .secondPrimaryKey)
  let multiValued ← draft.countMultiValued index.name [] index.columns
  if index.primary && decide (0 < multiValued) then
    throw (.invalid .multiValuedPrimaryKey)
  if 1 < multiValued then
    throw (.invalid (.severalMultiValued index.name))
  if index.isTuple && !draft.supportsTuple index.columns then
    throw (.invalid (.tupleColumn index.name))
  return { draft with indices := draft.indices ++ [{ index with table := draft.name }] }

/-- Carries out one step of a declaration. The clustering key is named after the table. -/
def declare (draft : TableDraft) : Declaration → Except SchemaError TableDraft
  | .column name type => draft.addColumn (.ofType name type)
  | .multiValued name type => draft.addColumn { Column.ofType name type with multiValued := true }
  | .nullable names => .ok (names.foldl addNullable draft)
  | .primaryKey columns =>
    draft.addIndex
      { IndexDefinition.standard ("pk" ++ capitalized draft.name) (KeyPart.ascending columns) with
        primary := true }
  | .index name columns => draft.addIndex (.standard name (KeyPart.ascending columns))
  | .orderedIndex name columns => draft.addIndex (.standard name columns)
  | .tupleIndex name column minLength =>
    draft.addIndex
      { IndexDefinition.standard name (KeyPart.ascending [column]) with
        kind := .tuple, minLength := minLength }
  | .definition index => draft.addIndex index

/-- The complete table. Columns learn their places. -/
def complete (draft : TableDraft) : Except SchemaError Table :=
  if draft.columns.isEmpty then .error (.invalid (.tableWithoutColumns draft.name))
  else .ok
    { name := draft.name
      columns := draft.columns.mapIdx fun position column => { column with position := position }
      indices := draft.indices }

end TableDraft

/-- An error in a declaration and the number of its step. The name of the table is step zero, and
the step after the last one completes the table. -/
structure DeclarationError where
  step : Nat
  error : SchemaError
  deriving DecidableEq, Repr

/-- Carries out the steps that remain, numbered from the given one, and completes the table. -/
def TableDraft.declareAll (draft : TableDraft) (step : Nat) :
    List Declaration → Except DeclarationError Table
  | [] => draft.complete.mapError (⟨step, ·⟩)
  | declaration :: rest => do
    let draft ← (draft.declare declaration).mapError (⟨step, ·⟩)
    draft.declareAll (step + 1) rest

/-- The table that a list of steps declares. -/
def Table.declare (name : String) (steps : List Declaration) : Except DeclarationError Table := do
  let draft ← (TableDraft.start name).mapError (⟨0, ·⟩)
  draft.declareAll 1 steps

end IndexedTable

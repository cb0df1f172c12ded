import IndexedTable.Predicate.Condition
import IndexedTable.Schema.Table

/-! Choosing an index for the conditions of a predicate. The first declared index is taken whose
leading columns are the fields mentioned, all but the last of them pinned by an equality. Of
several conditions that compete for one place the leftmost counts, and the number of the others is
reported. -/

namespace IndexedTable

/-- The scan that a plan asks for, with values still to be found. -/
inductive PlanShape where
  /-- Every entry of an index; the clustering index needs no name. -/
  | wholeIndex (index : Option String) (reversed : Bool)
  /-- The entries whose leading key columns have the values. -/
  | exact (index : String) (values : List ValueSource) (reversed : Bool)
  /-- The entries between two keys, either of which may be absent. -/
  | range (index : String) (start stop : Option (List ValueSource)) (reversed : Bool)
  /-- The entries whose last key column begins with the last value. -/
  | leading (index : String) (values : List ValueSource)

/-- A compiled predicate: a scan over an index of a known width. -/
structure Plan where
  width : Nat
  /-- Whether a record may have several entries, of which the scan returns the first. -/
  distinct : Bool
  shape : PlanShape

/-- Conditions on one key column that the plan does not use. -/
structure IgnoredConditions where
  field : String
  index : String
  count : Nat
  deriving DecidableEq, Repr

/-- A plan, and what was ignored on the way to it, in key order. -/
structure Selection where
  plan : Plan
  ignored : List IgnoredConditions

namespace Condition

/-- The fields of some conditions, each once, in order of first mention. -/
def fields (conditions : List Condition) : List String :=
  conditions.foldl
    (fun seen condition =>
      if seen.contains condition.field then seen else seen ++ [condition.field]) []

/-- The leftmost condition with the comparison. -/
def first? (conditions : List Condition) (comparison : Comparison) : Option Condition :=
  conditions.find? fun condition => decide (condition.kind = .compare comparison)

end Condition

namespace IndexDefinition

/-- The conditions on each key column, for the leading columns that have any, if these are all the
columns the conditions mention. -/
def groups? (index : IndexDefinition) (conditions : List Condition) :
    Option (List (KeyPart × List Condition)) :=
  let on := fun part : KeyPart => conditions.filter fun condition => condition.field == part.column
  let groups := (index.columns.map fun part => (part, on part)).takeWhile fun g => !g.2.isEmpty
  let covered := conditions.all fun condition =>
    groups.any fun g => g.1.column == condition.field
  if covered && !groups.isEmpty then some groups else none

/-- The report on a key column of which some conditions are used. -/
def ignoring (index : IndexDefinition) (field : String) (count : Nat) : List IgnoredConditions :=
  if count = 0 then [] else [⟨field, index.name, count⟩]

/-- The values that pin some leading columns, with a last value where there is one; no key at all
without values. -/
def boundValues (pinned : List ValueSource) (last : Option Condition) :
    Option (List ValueSource) :=
  let values := pinned ++ (last.map (·.source)).toList
  if values.isEmpty then none else some values

/-- The range over the values of the last column. A descending column exchanges the bounds. -/
def rangeShape (index : IndexDefinition) (direction : Direction) (pinned : List ValueSource)
    (lower upper : Option Condition) (reversed : Bool) : PlanShape :=
  match direction with
  | .ascending => .range index.name (boundValues pinned lower) (boundValues pinned upper) reversed
  | .descending => .range index.name (boundValues pinned upper) (boundValues pinned lower) reversed

/-- The scan that answers the groups of conditions, if every group but the last pins its column. -/
def shapeOf (index : IndexDefinition) (reversed : Bool) (pinned : List ValueSource) :
    List (KeyPart × List Condition) → Option (PlanShape × List IgnoredConditions)
  | [] => none
  | (part, group) :: rest =>
    match Condition.first? group .equal with
    | some equality =>
      let pinned := pinned ++ [equality.source]
      let ignored := index.ignoring equality.field (group.length - 1)
      if rest.isEmpty then some (.exact index.name pinned reversed, ignored)
      else
        (index.shapeOf reversed pinned rest).map fun (shape, others) => (shape, ignored ++ others)
    | none =>
      if rest.isEmpty then
        let lower := Condition.first? group .atLeast
        let upper := Condition.first? group .atMost
        let used := lower.toList.length + upper.toList.length
        some
          (index.rangeShape part.direction pinned lower upper reversed,
            index.ignoring part.column (group.length - used))
      else none

/-- The scan that answers the conditions from the index. -/
def answer? (index : IndexDefinition) (conditions : List Condition) (reversed : Bool) :
    Option (PlanShape × List IgnoredConditions) :=
  (index.groups? conditions).bind (index.shapeOf reversed [])

/-- Whether a record of the table may have several entries in the index. -/
def repeatsRecords (index : IndexDefinition) (table : Table) : Bool :=
  index.isTuple || index.columns.any fun part =>
    (table.column? part.column).any (·.multiValued)

end IndexDefinition

namespace Table

/-- The plan for a containment: the first tuple index whose key starts with the field. -/
def selectTuple (table : Table) (condition : Condition) : Except CompileError Selection :=
  match table.column? condition.field with
  | none => .error (.unknownField condition.field)
  | some column =>
    if !column.type.supportsPartialMatch then
      .error (.incompatibleColumnType condition.field column.type)
    else
      match table.indices.find? fun index =>
          index.isTuple && decide (index.position? condition.field = some 0) with
      | none => .error (.noTupleIndex condition.field)
      | some index =>
        .ok ⟨⟨index.width, true, .leading index.name [condition.source]⟩, []⟩

/-- The plan for comparisons: the first index that answers them. An index that holds suffixes
never does. -/
def selectRange (table : Table) (conditions : List Condition) (reversed : Bool) :
    Except CompileError Selection := do
  let fields := Condition.fields conditions
  match fields.find? fun field => (table.column? field).isNone with
  | some field => throw (.unknownField field)
  | none =>
    let candidates := table.indices.filter fun index =>
      !index.isTuple && fields.all fun field => (index.position? field).isSome
    if candidates.isEmpty then throw (.noCoveringIndex fields)
    match candidates.findSome? fun index =>
        (index.answer? conditions reversed).map fun answer => (index, answer) with
    | none => throw (.noSuitableIndex fields)
    | some (index, shape, ignored) =>
      return ⟨⟨index.width, index.repeatsRecords table, shape⟩, ignored⟩

/-- The plan for the conditions of a predicate. -/
def select (table : Table) (conditions : List Condition) (reversed : Bool) :
    Except CompileError Selection :=
  match conditions with
  | [] => .error (.unsupported "" .noConditions)
  | [⟨field, .containment, source⟩] => table.selectTuple ⟨field, .containment, source⟩
  | conditions => table.selectRange conditions reversed

end Table

end IndexedTable

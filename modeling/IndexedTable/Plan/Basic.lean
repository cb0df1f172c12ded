import IndexedTable.Filter.Basic
import IndexedTable.Plan.Selection

/-! Plans: compiling a predicate, or a request for a named index, against a table, and binding a
plan to its arguments. -/

namespace IndexedTable

/-- What a plan shows of itself. -/
structure PlanDescription where
  index : Option String
  strategy : String
  /-- The number of key values at the longer end. -/
  values : Nat
  distinct : Bool
  deriving DecidableEq, Repr

/-- The written form of a description. -/
def PlanDescription.render (description : PlanDescription) : String :=
  description.strategy ++ " on " ++ description.index.getD "<clustered>" ++ " (" ++
    toString description.values ++ " values" ++
    (if description.distinct then ", distinct" else "") ++ ")"

namespace PlanShape

/-- The index scanned; the clustering index needs no name. -/
def index : PlanShape → Option String
  | wholeIndex index _ => index
  | exact index _ _ | range index _ _ _ | leading index _ => some index

/-- The name of the kind of scan. -/
def strategyName : PlanShape → String
  | wholeIndex _ _ => "whole-index"
  | exact _ _ false => "exact-match"
  | exact _ _ true => "exact-match-reversed"
  | range _ _ _ false => "range"
  | range _ _ _ true => "range-reversed"
  | leading _ _ => "prefix"

/-- The number of key values, at the longer end of a range. -/
def valueCount : PlanShape → Nat
  | wholeIndex _ _ => 0
  | exact _ values _ | leading _ values => values.length
  | range _ start stop _ => max (start.getD []).length (stop.getD []).length

end PlanShape

namespace ValueSource

/-- The values of several sources. The first missing argument is the error. -/
def resolveAll (arguments : List Value) : List ValueSource → Except FilterError (List Value)
  | [] => .ok []
  | source :: rest => do
    let first ← source.resolve arguments
    let others ← resolveAll arguments rest
    return first :: others

/-- The values of an end of a range, if it has any. -/
def resolveEnd (arguments : List Value) : Option (List ValueSource) →
    Except FilterError (Option (List Value))
  | none => .ok none
  | some sources => (resolveAll arguments sources).map some

/-- The sources that several expressions name. -/
def ofExprs : List Expr → Except CompileError (List ValueSource)
  | [] => .ok []
  | expr :: rest => do
    let first ← ofExpr expr
    let others ← ofExprs rest
    return first :: others

end ValueSource

namespace Plan

/-- What the plan shows of itself. -/
def describe (plan : Plan) : PlanDescription where
  index := plan.shape.index
  strategy := plan.shape.strategyName
  values := plan.shape.valueCount
  distinct := plan.distinct

/-- The scan of the plan for some arguments. -/
def bindShape (width : Nat) (arguments : List Value) : PlanShape → Except FilterError ScanStrategy
  | .wholeIndex index reversed => .ok (.wholeIndex index reversed)
  | .exact index values reversed => do
    let values ← ValueSource.resolveAll arguments values
    ScanStrategy.checkedExact index width values reversed
  | .range index start stop reversed => do
    let start ← ValueSource.resolveEnd arguments start
    let stop ← ValueSource.resolveEnd arguments stop
    ScanStrategy.checkedRange index width start stop reversed
  | .leading index values => do
    let values ← ValueSource.resolveAll arguments values
    ScanStrategy.checkedLeading index width values

/-- The filter of the plan for some arguments. -/
def bind (plan : Plan) (arguments : List Value) : Except FilterError Filter := do
  let strategy ← bindShape plan.width arguments plan.shape
  return ⟨strategy, plan.distinct⟩

end Plan

namespace Table

/-- Compiles a predicate for a scan in the given direction. Containment runs in ascending
direction only. -/
def compile (table : Table) (predicate : Expr) (direction : Direction) :
    Except CompileError Selection := do
  let conditions ← predicate.conditions
  match predicate, direction with
  | .contains _ _, .descending =>
    throw (.unsupported predicate.render .descendingContains)
  | _, _ => table.select conditions direction.isDescending

/-- The index of a name, for a plan. -/
def indexForPlan (table : Table) (name : String) : Except CompileError IndexDefinition :=
  match table.index? name with
  | some index => .ok index
  | none => .error (.unknownIndex name)

/-- The sources of key values for an index, no more of them than it has key columns. -/
def keySources (index : IndexDefinition) (values : List Expr) :
    Except CompileError (List ValueSource) :=
  if index.width < values.length then
    .error (.tooManyValues index.name index.width values.length)
  else ValueSource.ofExprs values

/-- Plans a scan of every entry of an index; the clustering index needs no name. -/
def planWhole (table : Table) (name : Option String) (direction : Direction) :
    Except CompileError Plan :=
  match name with
  | none => .ok ⟨0, false, .wholeIndex none direction.isDescending⟩
  | some name => do
    let index ← table.indexForPlan name
    return ⟨index.width, index.repeatsRecords table, .wholeIndex (some name) direction.isDescending⟩

/-- Plans a match on the leading columns of an index. -/
def planExact (table : Table) (name : String) (values : List Expr) (direction : Direction) :
    Except CompileError Plan := do
  let index ← table.indexForPlan name
  let values ← keySources index values
  return ⟨index.width, index.repeatsRecords table, .exact name values direction.isDescending⟩

/-- Plans a range of an index, both ends included and either open. -/
def planRange (table : Table) (name : String) (start stop : Option (List Expr))
    (direction : Direction) : Except CompileError Plan := do
  let index ← table.indexForPlan name
  let start ← start.mapM (keySources index)
  let stop ← stop.mapM (keySources index)
  return ⟨index.width, index.repeatsRecords table, .range name start stop direction.isDescending⟩

end Table

end IndexedTable

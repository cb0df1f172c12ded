import IndexedTable.Predicate.Error
import IndexedTable.Predicate.Expr

/-! The conditions of a predicate. A predicate that an index range can answer is a conjunction of
inclusive comparisons between one field and one value, or a single containment; its conditions are
the leaves from left to right, with the field on the left. -/

namespace IndexedTable

/-- The inclusive comparisons. -/
inductive Comparison where
  | atMost
  | equal
  | atLeast
  deriving DecidableEq, Repr

/-- What a condition asks of its field. -/
inductive ConditionKind where
  | compare (comparison : Comparison)
  /-- The field begins with the value; in a tuple index, it contains the value. -/
  | containment
  deriving DecidableEq, Repr

/-- Where the value of a condition comes from. -/
inductive ValueSource where
  | literal (value : Value)
  | argument (place : UInt64)
  | thunk (thunk : Thunk)

/-- One condition on one field. -/
structure Condition where
  field : String
  kind : ConditionKind
  source : ValueSource

namespace ValueSource

/-- The value for some arguments. -/
def resolve (arguments : List Value) : ValueSource → Except FilterError Value
  | literal value => .ok value
  | argument place =>
    match arguments[place.toNat]? with
    | some value => .ok value
    | none => .error (.missingArgument place.toNat arguments.length)
  | thunk t => .ok (t.eval arguments)

/-- The source that an expression names. Only literals, arguments and thunks are sources. -/
def ofExpr : Expr → Except CompileError ValueSource
  | .literal value => .ok (literal value)
  | .argument place => .ok (argument place)
  | .thunk t => .ok (thunk t)
  | other => .error (.unsupported other.render .notAValue)

end ValueSource

namespace Expr

/-- The comparison an operator asks for, of those that a range can answer. -/
def inclusive (op : BinaryOp) : Except Unanswerable Comparison :=
  match op with
  | .equal => .ok .equal
  | .atMost => .ok .atMost
  | .atLeast => .ok .atLeast
  | .less | .greater => .error .strict
  | _ => .error .noRange

/-- The field of a comparison with the operator as seen from it, and the other operand. -/
def fieldSide (op : BinaryOp) (left right : Expr) :
    Except Unanswerable (String × BinaryOp × Expr) :=
  match left.asField?, right.asField? with
  | some _, some _ => .error .twoFields
  | none, none => .error .noField
  | some name, none => .ok (name, op, right)
  | none, some name => .ok (name, op.mirrored, left)

/-- The condition of a comparison between a field and a value, in either order. -/
def comparisonCondition (op : BinaryOp) (left right : Expr) : Except CompileError Condition := do
  let refuse (reason : Unanswerable) : CompileError :=
    .unsupported (Expr.binary op left right).render reason
  let (name, op, operand) ← (fieldSide op left right).mapError refuse
  let comparison ← (inclusive op).mapError refuse
  let source ← ValueSource.ofExpr operand
  return ⟨name, .compare comparison, source⟩

/-- The conditions of a conjunction, from left to right. -/
def conjunction : Expr → Except CompileError (List Condition)
  | binary .and left right => do
    let first ← conjunction left
    let second ← conjunction right
    return first ++ second
  | binary op left right =>
    if op.isComparison then (comparisonCondition op left right).map fun condition => [condition]
    else if op = .or then .error (.unsupported (binary op left right).render .disjunction)
    else .error (.unsupported (binary op left right).render .noConjunction)
  | contains haystack needle =>
    .error (.unsupported (contains haystack needle).render .nestedContains)
  | other => .error (.unsupported other.render .noConjunction)

/-- The conditions of a predicate. Containment must be the whole predicate. -/
def conditions : Expr → Except CompileError (List Condition)
  | contains haystack needle =>
    match haystack.asField? with
    | none => .error (.unsupported (contains haystack needle).render .containsOffField)
    | some name => (ValueSource.ofExpr needle).map fun source => [⟨name, .containment, source⟩]
  | other => other.conjunction

end Expr

end IndexedTable

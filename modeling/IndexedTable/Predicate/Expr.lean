import IndexedTable.Value.Text

/-! Predicates over the fields of a record. Values stand as literals, as arguments supplied when a
plan is bound, or as thunks computed from the arguments. -/

namespace IndexedTable

/-- Operators between two operands. -/
inductive BinaryOp where
  | equal
  | notEqual
  | less
  | atMost
  | greater
  | atLeast
  | and
  | or
  | add
  | subtract
  | multiply
  | divide
  deriving DecidableEq, Repr

namespace BinaryOp

/-- Whether the operator compares its operands. -/
def isComparison : BinaryOp → Bool
  | equal | notEqual | less | atMost | greater | atLeast => true
  | _ => false

/-- The operator that means the same with its operands exchanged, for a comparison. -/
def mirrored : BinaryOp → BinaryOp
  | less => greater
  | atMost => atLeast
  | greater => less
  | atLeast => atMost
  | op => op

/-- The written form of the operator. -/
def symbol : BinaryOp → String
  | equal => "=="
  | notEqual => "!="
  | less => "<"
  | atMost => "<="
  | greater => ">"
  | atLeast => ">="
  | and => "&&"
  | or => "||"
  | add => "+"
  | subtract => "-"
  | multiply => "*"
  | divide => "/"

/-- Every operator, in the order of their codes. -/
def all : List BinaryOp :=
  [equal, notEqual, less, atMost, greater, atLeast, and, or, add, subtract, multiply, divide]

end BinaryOp

/-- Operators with one operand. -/
inductive UnaryOp where
  | not
  | negate
  deriving DecidableEq, Repr

/-- The written form of the operator. -/
def UnaryOp.symbol : UnaryOp → String
  | not => "!"
  | negate => "-"

/-- A value computed from the arguments when a plan is bound. Thunks are told apart by their
identity alone. -/
structure Thunk where
  id : UInt64
  eval : List Value → Value

/-- A predicate, or a part of one. -/
inductive Expr where
  | field (name : String)
  | literal (value : Value)
  /-- The argument at a place, counted from zero. -/
  | argument (place : UInt64)
  | thunk (thunk : Thunk)
  | binary (op : BinaryOp) (left right : Expr)
  | unary (op : UnaryOp) (operand : Expr)
  /-- Whether a text or binary value occurs in another. -/
  | contains (haystack needle : Expr)
  | call (name : String) (arguments : List Expr)

namespace Expr

/-- The conjunction of several conditions, associated to the left. -/
def all : List Expr → Option Expr
  | [] => none
  | first :: rest => some (rest.foldl (binary .and) first)

/-- The name of a bare field reference. -/
def asField? : Expr → Option String
  | field name => some name
  | _ => none

mutual

/-- Whether an expression mentions no field. -/
def isValue : Expr → Bool
  | field _ => false
  | literal _ | argument _ | thunk _ => true
  | binary _ left right => isValue left && isValue right
  | unary _ operand => isValue operand
  | contains haystack needle => isValue haystack && isValue needle
  | call _ arguments => areValues arguments

/-- Whether several expressions mention no field. -/
def areValues : List Expr → Bool
  | [] => true
  | first :: rest => isValue first && areValues rest

end

mutual

/-- The written form of an expression. Binary operations stand in parentheses. -/
def render : Expr → String
  | field name => "r." ++ name
  | literal value => value.render
  | argument place => "$" ++ toString place.toNat
  | thunk _ => "<thunk>"
  | binary op left right => "(" ++ render left ++ " " ++ op.symbol ++ " " ++ render right ++ ")"
  | unary op operand => op.symbol ++ render operand
  | contains haystack needle => render haystack ++ ".contains(" ++ render needle ++ ")"
  | call name arguments => name ++ "(" ++ renderArguments arguments ++ ")"

/-- The written forms of several expressions, separated by commas. -/
def renderArguments : List Expr → String
  | [] => ""
  | [item] => render item
  | item :: next :: rest => render item ++ ", " ++ renderArguments (next :: rest)

end

mutual

/-- Whether two expressions are the same predicate: the same structure over identical literals,
arguments at the same places and thunks of the same identity. -/
def same : Expr → Expr → Bool
  | field a, field b => a == b
  | literal a, literal b => a.identical b
  | argument a, argument b => a == b
  | thunk a, thunk b => a.id == b.id
  | binary op left right, binary op' left' right' =>
    decide (op = op') && same left left' && same right right'
  | unary op operand, unary op' operand' => decide (op = op') && same operand operand'
  | contains haystack needle, contains haystack' needle' =>
    same haystack haystack' && same needle needle'
  | call name arguments, call name' arguments' => name == name' && sameItems arguments arguments'
  | _, _ => false

/-- Whether two lists of expressions are the same, item by item. -/
def sameItems : List Expr → List Expr → Bool
  | [], [] => true
  | a :: as, b :: bs => same a b && sameItems as bs
  | _, _ => false

end

end Expr

end IndexedTable

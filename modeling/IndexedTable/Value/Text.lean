import IndexedTable.Binary64.Shortest
import IndexedTable.Text.Hex
import IndexedTable.Text.Quoted
import IndexedTable.Value.Basic

/-! The written form of a value in messages and predicates. Numbers of different width look alike; a
time is marked by a leading sign and a binary value by its digits. -/

namespace IndexedTable.Value

mutual

/-- The written form of a value. -/
def render : Value → String
  | null => "null"
  | boolean b => if b then "true" else "false"
  | int32 n => toString n.toInt
  | int64 n => toString n.toInt
  | float64 x => x.render
  | text s => Text.quote s
  | dateTime n => "@" ++ toString n.toInt
  | bytes b => "0x" ++ Text.hex b
  | list items => "[" ++ renderItems items ++ "]"

/-- The written forms of several values, separated by commas. -/
def renderItems : List Value → String
  | [] => ""
  | [item] => render item
  | item :: next :: rest => render item ++ ", " ++ renderItems (next :: rest)

end

end IndexedTable.Value

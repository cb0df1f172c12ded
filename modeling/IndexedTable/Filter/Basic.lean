import IndexedTable.Cursor.Record
import IndexedTable.Predicate.Error

/-! Filters: scans over an index with concrete values. Every filter is a range of keys read in one
direction, given by at most one value list for each end. -/

namespace IndexedTable

/-- The kinds of scan. -/
inductive ScanStrategy where
  /-- Every entry of an index; the clustering index needs no name. -/
  | wholeIndex (index : Option String) (reversed : Bool)
  /-- The entries whose leading key columns have the values, of an index of the given width. -/
  | exact (index : String) (width : Nat) (values : List Value) (reversed : Bool)
  /-- The entries between two value lists, both included, each standing for every key it begins. -/
  | range (index : String) (width : Nat) (start stop : Option (List Value)) (reversed : Bool)
  /-- The entries whose last key column begins with the last value. -/
  | leading (index : String) (values : List Value)

/-- A scan, with the rule for records that it meets more than once. -/
structure Filter where
  strategy : ScanStrategy
  /-- Whether a record is returned only once. -/
  distinct : Bool

namespace ScanStrategy

/-- The name of the kind of scan. -/
def name : ScanStrategy → String
  | wholeIndex _ _ => "whole-index"
  | exact _ _ _ false => "exact-match"
  | exact _ _ _ true => "exact-match-reversed"
  | range _ _ _ _ false => "range"
  | range _ _ _ _ true => "range-reversed"
  | leading _ _ => "prefix"

/-- The index scanned; the clustering index needs no name. -/
def index : ScanStrategy → Option String
  | wholeIndex index _ => index
  | exact index _ _ _ | range index _ _ _ _ | leading index _ => some index

/-- Whether the scan runs from the last entry to the first. -/
def reversed : ScanStrategy → Bool
  | wholeIndex _ reversed | exact _ _ _ reversed | range _ _ _ _ reversed => reversed
  | leading _ _ => false

/-- Whether the direction may be changed. -/
def invertible : ScanStrategy → Bool
  | wholeIndex _ _ | range _ _ _ _ _ => true
  | _ => false

/-- Refuses more values than the index has key columns. -/
def checkWidth (index : String) (width : Nat) (values : List Value) : Except FilterError Unit :=
  if width < values.length then .error (.valueCountOutOfBounds index width values.length)
  else .ok ()

/-- An exact match, with no more values than the index has key columns. -/
def checkedExact (index : String) (width : Nat) (values : List Value) (reversed : Bool) :
    Except FilterError ScanStrategy := do
  checkWidth index width values
  return exact index width values reversed

/-- A range, with no more values at either end than the index has key columns. -/
def checkedRange (index : String) (width : Nat) (start stop : Option (List Value))
    (reversed : Bool) : Except FilterError ScanStrategy := do
  checkWidth index width (start.getD [])
  checkWidth index width (stop.getD [])
  return range index width start stop reversed

/-- A match of the last value by its leading part, which needs a value. -/
def checkedLeading (index : String) (width : Nat) (values : List Value) :
    Except FilterError ScanStrategy := do
  checkWidth index width values
  if values.isEmpty then throw (.valueCountOutOfBounds index width 0)
  return leading index values

/-- The strategy in the other direction, or in the same one. Exact matches and matches by leading
part keep the direction they were built with. -/
def setReversed (strategy : ScanStrategy) (reversed : Bool) : Except FilterError ScanStrategy :=
  if reversed = strategy.reversed then .ok strategy
  else
    match strategy with
    | wholeIndex index _ => .ok (wholeIndex index reversed)
    | range index width start stop _ => .ok (range index width start stop reversed)
    | fixed => .error (.notOffered .setReversed fixed.name)

end ScanStrategy

/-- A range of an index by its values: the scan reads the keys from the start to the stop, or
back. -/
structure ValueRange where
  index : Option String
  start : Option (List Value × KeyLimit)
  stop : Option (List Value × KeyLimit)
  reversed : Bool

namespace ScanStrategy

/-- A full value list stands for its own key, a shorter one for every key it begins. -/
def limitFor (width : Nat) (shorter : KeyLimit) (values : List Value) : List Value × KeyLimit :=
  (values, if values.length < width then shorter else .exact)

/-- The range that a strategy reads. -/
def valueRange : ScanStrategy → ValueRange
  | wholeIndex index reversed => ⟨index, none, none, reversed⟩
  | exact index width values reversed =>
    ⟨some index, some (limitFor width .rangeStart values), some (values, .rangeEnd), reversed⟩
  | range index width start stop reversed =>
    ⟨some index, start.map (limitFor width .rangeStart), stop.map (limitFor width .rangeEnd),
      reversed⟩
  | leading index values =>
    ⟨some index, some (values, .partialStart), some (values, .partialEnd), false⟩

end ScanStrategy

end IndexedTable

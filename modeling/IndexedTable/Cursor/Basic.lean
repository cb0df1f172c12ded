import IndexedTable.Index.Bound
import IndexedTable.Store.Basic

/-! Cursors: a place in one index of a store at a time, with an optional bound on either side.
Movement past the end of the index or past a bound loses the place. Every operation that looks for
a place anew drops the bounds. -/

namespace IndexedTable

open scoped Power

/-- How a cursor finds the entries of a record in the selected index. -/
inductive RecordSearch where
  /-- By computing them from the values of the record. -/
  | byValues
  /-- By walking through the index. -/
  | byWalk
  deriving DecidableEq, Repr

/-- A cursor over a store, which does not change while the cursor is in use. -/
structure Cursor where
  store : Store
  /-- The selected index. -/
  slot : Slot
  current : Option Entry
  upper : Option ScanBound
  lower : Option ScanBound
  search : RecordSearch

/-- The place of an entry in its index. -/
structure EntryPosition where
  before : Nat
  total : Nat
  deriving DecidableEq, Repr

/-- A cursor without a place on the clustering index. -/
def Store.cursor (store : Store) (search : RecordSearch) : Cursor where
  store := store
  slot := store.clustering
  current := none
  upper := none
  lower := none
  search := search

namespace Cursor

/-- The entries of the selected index. -/
def index (cursor : Cursor) : OrderedIndex := cursor.slot.index

/-- Drops both bounds. -/
def clearBounds (cursor : Cursor) : Cursor := { cursor with upper := none, lower := none }

/-- Whether both bounds admit the key of an entry. -/
def withinBounds (cursor : Cursor) (entry : Entry) : Bool :=
  cursor.upper.all (·.admits entry.key) && cursor.lower.all (·.admits entry.key)

/-- The cursor without bounds at an entry, or without a place. -/
def land (cursor : Cursor) (entry : Option Entry) : Cursor :=
  { cursor.clearBounds with current := entry }

/-- Goes to the entry nearest to a key on the side that the mode names. -/
def seek (cursor : Cursor) (key : Key) : SeekMode → Cursor
  | .atOrAfter => cursor.land (cursor.index.atOrAfter? key)
  | .atOrBefore => cursor.land (cursor.index.atOrBefore? key)

/-- Goes to the first entry. -/
def first (cursor : Cursor) : Cursor := cursor.land cursor.index.first?

/-- Goes to the last entry. -/
def last (cursor : Cursor) : Cursor := cursor.land cursor.index.last?

/-- Goes to the following entry, if the bounds admit it. -/
def next (cursor : Cursor) : Cursor :=
  { cursor with
    current := cursor.current.bind fun entry =>
      (cursor.index.after? entry).filter cursor.withinBounds }

/-- Goes to the preceding entry, if the bounds admit it. -/
def previous (cursor : Cursor) : Cursor :=
  { cursor with
    current := cursor.current.bind fun entry =>
      (cursor.index.before? entry).filter cursor.withinBounds }

/-- Bounds further movement. The place is lost unless the bound admits it. -/
def setBound (cursor : Cursor) (bound : ScanBound) : Cursor :=
  let placed := { cursor with current := cursor.current.filter fun entry => bound.admits entry.key }
  match bound.side with
  | .upper => { placed with upper := some bound }
  | .lower => { placed with lower := some bound }

/-- Goes to the entry at about `numerator / denominator` of the index, in machine words, and to no
entry for an empty index or denominator zero. -/
def gotoPosition (cursor : Cursor) (numerator denominator : UInt64) : Cursor :=
  let total := cursor.index.size
  if total = 0 ∨ denominator = 0 then cursor.land none
  else
    let place := total * numerator.toNat / denominator.toNat % 2 ^ (64 : Nat)
    cursor.land (cursor.index.nth? (min place (total - 1)))

/-- The current entry. -/
def entry (cursor : Cursor) : Except IndexError Entry :=
  match cursor.current with
  | some entry => .ok entry
  | none => .error .noCurrentEntry

/-- The key of the current entry. -/
def key (cursor : Cursor) : Except IndexError Key := cursor.entry.map (·.key)

/-- The bookmark of the record at the current entry. -/
def bookmark (cursor : Cursor) : Except IndexError Bookmark := cursor.entry.map (·.bookmark)

/-- The values of the record at the current entry. -/
def row (cursor : Cursor) : Except IndexError Row := do
  let bookmark ← cursor.bookmark
  match cursor.store.get? bookmark with
  | some row => return row
  | none => throw .recordNotFound

/-- Where the current entry stands in its index. -/
def position (cursor : Cursor) : Except IndexError EntryPosition := do
  let entry ← cursor.entry
  return ⟨cursor.index.rank entry, cursor.index.size⟩

/-- The key of some values in the selected index. -/
def makeKey (cursor : Cursor) (values : List Value) (limit : KeyLimit) : Except IndexError Key :=
  cursor.index.layout.makeKey values limit

/-- The outcome of a movement: whether the cursor has a place. -/
def placed (cursor : Cursor) : Outcome Cursor Bool := (.ok cursor.current.isSome, cursor)

/-- Selects an index; the clustering index needs no name. Selecting the same index again keeps
place and bounds. -/
def select (cursor : Cursor) (name : Option String) : Outcome Cursor Unit :=
  match cursor.store.slot name with
  | .error e => (.error e, cursor)
  | .ok slot =>
    if slot.index.name = cursor.index.name then (.ok (), cursor)
    else (.ok (), { cursor.land none with slot := slot })

/-- The entries of a record in the selected index, in ascending order. -/
def entriesOf (cursor : Cursor) (bookmark : Bookmark) : Except IndexError (List Entry) :=
  cursor.store.entriesFor cursor.slot bookmark

/-- Goes to the first entry of a record. -/
def gotoBookmark (cursor : Cursor) (bookmark : Bookmark) : Outcome Cursor Bool :=
  match cursor.entriesOf bookmark with
  | .error e => (.error e, cursor.clearBounds)
  | .ok entries => (cursor.land entries.head?).placed

end Cursor

end IndexedTable

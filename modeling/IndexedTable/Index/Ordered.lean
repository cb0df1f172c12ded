import IndexedTable.Index.Counters
import IndexedTable.Index.Entry
import IndexedTable.Outcome

/-! An ordered index: entries in ascending order, and the positional questions a cursor asks of
them. In a unique index no two records share a key. -/

namespace IndexedTable

/-- An index over the records of a table. -/
structure OrderedIndex where
  name : String
  layout : KeyLayout
  /-- Whether two records may not share a key. -/
  unique : Bool
  entries : OrderedSet Entry Entry.order
  counters : EntryCounters

namespace OrderedIndex

/-- An index without entries. -/
def empty (name : String) (layout : KeyLayout) (unique : Bool) : OrderedIndex where
  name := name
  layout := layout
  unique := unique
  entries := .empty
  counters := .zero

/-- The number of entries. -/
def size (index : OrderedIndex) : Nat := index.entries.size

/-- Whether the entry is stored. -/
def contains (index : OrderedIndex) (entry : Entry) : Bool := index.entries.contains entry

/-- The first entry. -/
def first? (index : OrderedIndex) : Option Entry := index.entries.toList.head?

/-- The last entry. -/
def last? (index : OrderedIndex) : Option Entry := index.entries.toList.getLast?

/-- The first entry after the given one, which need not be stored. -/
def after? (index : OrderedIndex) (entry : Entry) : Option Entry :=
  index.entries.toList.find? fun other => Entry.order entry other == .lt

/-- The last entry before the given one, which need not be stored. -/
def before? (index : OrderedIndex) (entry : Entry) : Option Entry :=
  (index.entries.toList.filter fun other => Entry.order other entry == .lt).getLast?

/-- The first entry at or after the key: after the least entry that a key can have. -/
def atOrAfter? (index : OrderedIndex) (key : Key) : Option Entry :=
  index.entries.toList.find? fun other => (Entry.order ⟨key, default⟩ other).isLE

/-- The last entry at or before the key: before the least entry of the next key, which is the key
extended by a zero byte. -/
def atOrBefore? (index : OrderedIndex) (key : Key) : Option Entry :=
  index.before? ⟨⟨key.bytes ++ [0]⟩, default⟩

/-- The entry at a place, counted from zero. -/
def nth? (index : OrderedIndex) (place : Nat) : Option Entry := index.entries.toList[place]?

/-- The number of entries before the given one, which need not be stored. -/
def rank (index : OrderedIndex) (entry : Entry) : Nat :=
  index.entries.toList.countP fun other => Entry.order other entry == .lt

/-- Stores an entry. An entry already present is only counted; in a unique index, a key of another
record is refused. -/
def insert (index : OrderedIndex) (entry : Entry) : Outcome OrderedIndex Unit :=
  let taken := index.unique && (index.atOrAfter? entry.key).any fun other =>
    decide (other.key = entry.key) && decide (other.bookmark ≠ entry.bookmark)
  if taken then (.error (.duplicateKey index.name), index)
  else if index.contains entry then
    (.ok (), { index with counters := index.counters.collapse })
  else
    (.ok (),
      { index with entries := index.entries.insert entry, counters := index.counters.add 1 })

/-- Removes an entry, if it is stored. -/
def erase (index : OrderedIndex) (entry : Entry) : OrderedIndex :=
  if index.contains entry then
    { index with entries := index.entries.erase entry, counters := index.counters.remove 1 }
  else index

/-- Removes every entry and resets the counters. -/
def clear (index : OrderedIndex) : OrderedIndex :=
  { index with entries := .empty, counters := .zero }

end OrderedIndex

end IndexedTable

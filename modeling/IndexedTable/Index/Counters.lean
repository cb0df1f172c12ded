/-! The two counters an index keeps: entries stored, and insertions that met an entry already
present. Both are machine words and wrap. -/

namespace IndexedTable

/-- Counters of an index. -/
structure EntryCounters where
  total : UInt64
  collapsed : UInt64
  deriving DecidableEq, Repr

namespace EntryCounters

/-- Both counters at zero. -/
def zero : EntryCounters := ⟨0, 0⟩

/-- Counts entries stored. -/
def add (counters : EntryCounters) (count : UInt64) : EntryCounters :=
  { counters with total := counters.total + count }

/-- Counts entries removed. -/
def remove (counters : EntryCounters) (count : UInt64) : EntryCounters :=
  { counters with total := counters.total - count }

/-- Counts an insertion that met its entry. -/
def collapse (counters : EntryCounters) : EntryCounters :=
  { counters with collapsed := counters.collapsed + 1 }

end EntryCounters

end IndexedTable

import IndexedTable.Filter.Basic

/-! Applying a filter to a cursor: selecting the index, going to the first entry in the direction
of the scan, or to an entry of a given record, and bounding the cursor at the far end. -/

namespace IndexedTable

namespace ValueRange

/-- The way a scan of the range looks for its first entry. -/
def mode (range : ValueRange) : SeekMode := if range.reversed then .atOrBefore else .atOrAfter

/-- The keys of the range in an index, the start before the stop. -/
def interval (range : ValueRange) (cursor : Cursor) : Except IndexError KeyInterval := do
  let start ← range.start.mapM fun (values, limit) => cursor.makeKey values limit
  let stop ← range.stop.mapM fun (values, limit) => cursor.makeKey values limit
  return ⟨start, stop⟩

/-- Selects the index without bounds, and encodes the ends of the range for it. -/
def prepare (range : ValueRange) (cursor : Cursor) : Outcome Cursor KeyInterval :=
  match cursor.select range.index with
  | (.error e, cursor) => (.error e, cursor)
  | (.ok (), cursor) => (range.interval cursor, cursor.clearBounds)

/-- The bound at the end of the interval that a scan reaches last. -/
def farBound? (interval : KeyInterval) : SeekMode → Option ScanBound
  | .atOrAfter => interval.stop.map fun key => ⟨key, .upper, true⟩
  | .atOrBefore => interval.start.map fun key => ⟨key, .lower, true⟩

/-- Bounds the cursor at the far end of the interval, if that is closed. -/
def boundFarEnd (interval : KeyInterval) (mode : SeekMode) (cursor : Cursor) :
    Outcome Cursor Bool :=
  match farBound? interval mode with
  | some bound => (cursor.setBound bound).placed
  | none => (.ok true, cursor)

/-- Goes to the first entry of the range in scan direction. The answer is false if there is none. -/
def applyFromStart (range : ValueRange) (cursor : Cursor) : Outcome Cursor Bool :=
  match range.prepare cursor with
  | (.error e, cursor) => (.error e, cursor)
  | (.ok interval, cursor) =>
    let cursor := cursor.enter interval range.mode
    if cursor.current.isSome then boundFarEnd interval range.mode cursor else (.ok false, cursor)

/-- Goes to the first entry of the record in scan direction that lies in the range. The answer is
false if there is none. -/
def applyFromBookmark (range : ValueRange) (cursor : Cursor) (bookmark : Bookmark) :
    Outcome Cursor Bool :=
  match range.prepare cursor with
  | (.error e, cursor) => (.error e, cursor)
  | (.ok interval, cursor) =>
    match cursor.gotoBookmarkWithin bookmark interval range.mode with
    | (.ok true, cursor) => boundFarEnd interval range.mode cursor
    | other => other

end ValueRange

namespace Filter

/-- Positions a cursor on the first entry that the filter admits. -/
def applyFromStart (filter : Filter) (cursor : Cursor) : Outcome Cursor Bool :=
  filter.strategy.valueRange.applyFromStart cursor

/-- Positions a cursor on the first entry of a record that the filter admits. -/
def applyFromBookmark (filter : Filter) (cursor : Cursor) (bookmark : Bookmark) :
    Outcome Cursor Bool :=
  filter.strategy.valueRange.applyFromBookmark cursor bookmark

end Filter

end IndexedTable

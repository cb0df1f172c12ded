import IndexedTable.Cursor.Movement

/-! Finding the entry of a record within a range of keys, by either of two methods: from the
values of the record, or by walking through the range. -/

namespace IndexedTable

/-- A range of keys with both ends included; either end may be open. -/
structure KeyInterval where
  start : Option Key
  stop : Option Key
  deriving DecidableEq, Repr

/-- Whether a key lies in the interval. -/
def KeyInterval.contains (interval : KeyInterval) (key : Key) : Bool :=
  interval.start.all (fun start => decide (start ≤ key)) &&
    interval.stop.all fun stop => decide (key ≤ stop)

namespace Cursor

/-- Enters the interval from the side where a search in the mode begins. -/
def enter (cursor : Cursor) (interval : KeyInterval) : SeekMode → Cursor
  | .atOrAfter =>
    match interval.start with
    | some key => cursor.seek key .atOrAfter
    | none => cursor.first
  | .atOrBefore =>
    match interval.stop with
    | some key => cursor.seek key .atOrBefore
    | none => cursor.last

/-- Whether a walk in the mode has left the interval at its far end. -/
def passed (interval : KeyInterval) (key : Key) : SeekMode → Bool
  | .atOrAfter => interval.stop.any fun stop => decide (stop < key)
  | .atOrBefore => interval.start.any fun start => decide (key < start)

/-- Moves on until the cursor meets an entry of the record, from the outcome of a movement. Leaving
the interval ends the walk where it is. -/
def walkTo (bookmark : Bookmark) (interval : KeyInterval) (mode : SeekMode) :
    Outcome Cursor Bool → Outcome Cursor Bool
  | (.error e, cursor) => (.error e, cursor)
  | (.ok false, cursor) => (.ok false, cursor)
  | (.ok true, cursor) =>
    match _hKey : cursor.key with
    | .error e => (.error e, cursor)
    | .ok key =>
      if passed interval key mode then (.ok false, cursor)
      else
        match cursor.bookmark with
        | .error e => (.error e, cursor)
        | .ok owner =>
          if owner = bookmark then (.ok true, cursor)
          else walkTo bookmark interval mode (cursor.step mode.reversed).placed
termination_by moved => moved.2.ahead mode.reversed
decreasing_by
  obtain ⟨entry, hCurrent⟩ := exists_current_of_key _hKey
  exact ahead_step_lt hCurrent

/-- Goes to the first or last entry of the record in the interval, found on a walk through it. -/
def gotoWalked (cursor : Cursor) (bookmark : Bookmark) (interval : KeyInterval) (mode : SeekMode) :
    Outcome Cursor Bool :=
  walkTo bookmark interval mode (cursor.enter interval mode).placed

/-- Goes to the first or last entry of the record in the interval, computed from its values. -/
def gotoComputed (cursor : Cursor) (bookmark : Bookmark) (interval : KeyInterval)
    (mode : SeekMode) : Outcome Cursor Bool :=
  match cursor.entriesOf bookmark with
  | .error e => (.error e, cursor.clearBounds)
  | .ok entries =>
    let candidates := entries.filter fun entry => interval.contains entry.key
    match mode with
    | .atOrAfter => (cursor.land candidates.head?).placed
    | .atOrBefore => (cursor.land candidates.getLast?).placed

/-- Goes to the first or last entry of the record in the interval, as the cursor searches. -/
def gotoBookmarkWithin (cursor : Cursor) (bookmark : Bookmark) (interval : KeyInterval)
    (mode : SeekMode) : Outcome Cursor Bool :=
  match cursor.search with
  | .byValues => cursor.gotoComputed bookmark interval mode
  | .byWalk => cursor.gotoWalked bookmark interval mode

end Cursor

end IndexedTable

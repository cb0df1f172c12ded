import IndexedTable.Filter.Apply

/-! Estimating the number of entries of an index from a few places in it. Each sampled place
implies a size: the middle of its entry, scaled up by the share of the index that lies before. -/

namespace IndexedTable.Filter

/-- The number of places sampled unless the caller asks for another. -/
def defaultSamples : Nat := 8

/-- The size that a place implies: the entry `before` stands at the given share of the index. -/
def impliedSize (before number denominator : Nat) : Nat :=
  (2 * before + 1) * denominator / (2 * number)

/-- Adds up the sizes implied at the places `number, number + 1, …` out of `denominator`, for as
many places as remain. The sum is missing if a place has no entry. -/
def sampledSizes (denominator : Nat) : Nat → Nat → Nat → Cursor → Option Nat × Cursor
  | 0, _, sum, cursor => (some sum, cursor)
  | remaining + 1, number, sum, cursor =>
    let cursor := cursor.gotoPosition number.toUInt64 denominator.toUInt64
    match cursor.current with
    | none => (none, cursor)
    | some entry =>
      sampledSizes denominator remaining (number + 1)
        (sum + impliedSize (cursor.index.rank entry) number denominator) cursor

/-- The mean of the sizes implied at evenly spaced places of the whole index, at least one unless
the index is empty. No samples count as one. -/
def estimateWhole (index : Option String) (samples : Nat) (cursor : Cursor) : Outcome Cursor Nat :=
  match cursor.select index with
  | (.error e, cursor) => (.error e, cursor)
  | (.ok (), cursor) =>
    let cursor := cursor.first
    if cursor.current.isSome then
      let samples := max 1 samples
      match sampledSizes (samples + 1) samples 1 0 cursor with
      | (some sum, cursor) => (.ok (max 1 (sum / samples)), cursor)
      | (none, cursor) => (.ok 0, cursor)
    else (.ok 0, cursor)

/-- An estimate of the number of entries the filter visits. Only scans of a whole index have one.
The cursor is left at the last place sampled. -/
def estimateCount (filter : Filter) (samples : Nat) (cursor : Cursor) :
    Except FilterError Nat × Cursor :=
  match filter.strategy with
  | .wholeIndex index _ =>
    let (result, cursor) := estimateWhole index samples cursor
    (result.mapError .cursor, cursor)
  | other => (.error (.notOffered .estimateCount other.name), cursor)

end IndexedTable.Filter

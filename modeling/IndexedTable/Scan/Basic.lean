import IndexedTable.Filter.Apply
import IndexedTable.Scan.Seen

/-! Scans: the bookmarks of the records that a filter admits, one after another, in the direction
of the filter. An error is reported once and ends the scan; after its end a scan has nothing more.
-/

namespace IndexedTable

/-- How far a scan has come. -/
inductive ScanPhase where
  /-- The filter is still to be applied, from the start or from a record. -/
  | pending (from? : Option Bookmark)
  | positioned
  | done
  deriving DecidableEq, Repr

/-- A scan under way on a cursor. -/
structure Scan where
  filter : Filter
  cursor : Cursor
  phase : ScanPhase
  /-- The records returned so far, if each may be returned only once. -/
  seen : SeenBookmarks

/-- What a scan returned. -/
structure ScanResult where
  items : List (Except IndexError Bookmark)
  /-- Whether the scan came to its end. -/
  ended : Bool
  scan : Scan

namespace Filter

/-- A scan from the first entry. -/
def scan (filter : Filter) (cursor : Cursor) : Scan := ⟨filter, cursor, .pending none, .empty⟩

/-- A scan from a record, which is returned first if the filter admits it. -/
def scanFrom (filter : Filter) (cursor : Cursor) (bookmark : Bookmark) : Scan :=
  ⟨filter, cursor, .pending (some bookmark), .empty⟩

end Filter

namespace Scan

/-- Goes to the entry of the next bookmark, if any: the first time by applying the filter, then by
moving in its direction. -/
def advance (scan : Scan) : Outcome Cursor Bool :=
  match scan.phase with
  | .pending none => scan.filter.applyFromStart scan.cursor
  | .pending (some bookmark) => scan.filter.applyFromBookmark scan.cursor bookmark
  | .positioned => (scan.cursor.step scan.filter.strategy.reversed).placed
  | .done => (.ok false, scan.cursor)

/-- The scan after its end. -/
def finish (scan : Scan) (cursor : Cursor) : Scan := { scan with cursor := cursor, phase := .done }

/-- The scan after it has come to an entry. -/
def placedAt (scan : Scan) (cursor : Cursor) : Scan :=
  { scan with cursor := cursor, phase := .positioned }

/-- A bound on the number of entries that the scan still comes to. Before the filter is applied,
the cursor may stand anywhere, so that the entries ahead are those after its application. -/
def ahead (scan : Scan) : Nat :=
  match scan.phase with
  | .pending _ => scan.advance.2.ahead scan.filter.strategy.reversed + 1
  | .positioned => scan.cursor.ahead scan.filter.strategy.reversed
  | .done => 0

/-- Coming to an entry leaves fewer entries ahead. -/
theorem ahead_placedAt_lt {scan : Scan} {cursor : Cursor}
    (hAdvance : scan.advance = (.ok true, cursor)) : (scan.placedAt cursor).ahead < scan.ahead := by
  cases hPhase : scan.phase with
  | pending from? =>
      simp only [ahead, placedAt, hPhase, hAdvance]
      exact Nat.lt_succ_self _
  | positioned =>
      rw [advance, hPhase] at hAdvance
      obtain ⟨hPlaced, rfl⟩ := Prod.mk.inj hAdvance
      have hSome : (scan.cursor.step scan.filter.strategy.reversed).current.isSome = true :=
        Except.ok.inj hPlaced
      simp only [ahead, placedAt, hPhase]
      cases hCurrent : scan.cursor.current with
      | none => simp [Cursor.step_eq, hCurrent] at hSome
      | some entry => exact Cursor.ahead_step_lt hCurrent
  | done =>
      rw [advance, hPhase] at hAdvance
      cases hAdvance

/-- The next bookmark, skipping records already returned where the filter asks for it. -/
def next (scan : Scan) : Option (Except IndexError Bookmark) × Scan :=
  match _hAdvance : scan.advance with
  | (.error e, cursor) => (some (.error e), scan.finish cursor)
  | (.ok false, cursor) => (none, scan.finish cursor)
  | (.ok true, cursor) =>
    match cursor.bookmark with
    | .error e => (some (.error e), scan.finish cursor)
    | .ok bookmark =>
      if scan.filter.distinct then
        if scan.seen.contains bookmark then next (scan.placedAt cursor)
        else
          (some (.ok bookmark),
            { scan.placedAt cursor with seen := scan.seen.insert bookmark })
      else (some (.ok bookmark), scan.placedAt cursor)
termination_by scan.ahead
decreasing_by exact ahead_placedAt_lt _hAdvance

/-- The next bookmarks, as many as the limit allows. The end of the scan shows only if the limit
leaves room to meet it. -/
def take : Nat → Scan → ScanResult
  | 0, scan => ⟨[], false, scan⟩
  | limit + 1, scan =>
    match scan.next with
    | (none, scan) => ⟨[], true, scan⟩
    | (some item, scan) =>
      let rest := take limit scan
      { rest with items := item :: rest.items }

/-- The number of entries in all indices of a store. -/
def entryCount (store : Store) : Nat :=
  (store.clustering :: store.secondary).foldr (fun slot count => slot.index.size + count) 0

/-- All bookmarks to the end of the scan: at most one for each entry, an error, and the end. -/
def toEnd (scan : Scan) : ScanResult := scan.take (entryCount scan.cursor.store + 2)

end Scan

end IndexedTable

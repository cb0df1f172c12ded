import IndexedTable.Proofs.CursorRuns

/-! Applying a filter to a cursor that was in use. Selecting the index that is selected already
keeps place and bounds, but the bounds go while the filter prepares, and the search for a first
entry takes its place anew, also where it finds none. So nothing is left of what the cursor did
before, and a scan through it is the scan through a new cursor. -/

namespace IndexedTable

namespace Cursor

variable {cursor other : Cursor} {store : Store} {table : Table} {interval : KeyInterval}
  {mode : SeekMode} {bookmark : Bookmark}

theorem search_enter : (cursor.enter interval mode).search = cursor.search := by
  obtain ⟨reversed, rfl⟩ := exists_modeOf_eq mode
  rw [modeOf, enter_eq_land]
  rfl

/-- Neither the place nor the bounds of a cursor matter where it enters an interval. -/
theorem enter_land_none : (cursor.land none).enter interval mode = cursor.enter interval mode := by
  obtain ⟨reversed, rfl⟩ := exists_modeOf_eq mode
  rw [modeOf, enter_eq_land, enter_eq_land]
  rfl

/-- Nor do they where it goes to a record. -/
theorem On.gotoBookmarkWithin_land_none (hTable : table.WellFormed)
    (hStore : Store.Invariant table store) (hCursor : cursor.On store) :
    (cursor.land none).gotoBookmarkWithin bookmark interval mode =
      cursor.gotoBookmarkWithin bookmark interval mode := by
  obtain ⟨rfl, hSlot⟩ := hCursor
  have hNames := Store.indexNames_nodup hTable hStore
  unfold gotoBookmarkWithin
  rw [show (cursor.land none).search = cursor.search from rfl]
  cases cursor.search with
  | byValues =>
      obtain ⟨reversed, rfl⟩ := exists_modeOf_eq mode
      rw [modeOf, gotoComputed_eq hNames hStore hSlot]
      exact @gotoComputed_eq (cursor.land none) interval reversed bookmark table hNames hStore hSlot
  | byWalk =>
      simp only [gotoWalked, enter_land_none]

/-- Selecting an index of the store leaves, up to place and bounds, a new cursor on that index. -/
theorem On.select_eq_ok {name : Option String} {slot : Slot} (hNames : store.indexNames.Nodup)
    (hCursor : cursor.On store) (hSlot : store.slot name = .ok slot) :
    ∃ selected : Cursor, cursor.select name = (.ok (), selected) ∧
      selected.land none = { store.cursor cursor.search with slot := slot } := by
  obtain ⟨rfl, hMem⟩ := hCursor
  unfold Cursor.select
  rw [hSlot]
  by_cases hName : slot.index.name = cursor.index.name
  · obtain rfl := Store.slot_eq_of_name_eq hNames (Store.slot_mem hSlot) hMem hName
    exact ⟨cursor, if_pos hName, rfl⟩
  · exact ⟨_, if_neg hName, rfl⟩

/-- Without its place and bounds, a cursor is known by its store, its index and its search. -/
theorem on_of_land_none {search : RecordSearch} {slot : Slot} {name : Option String}
    (hSlot : store.slot name = .ok slot)
    (hFresh : cursor.land none = { store.cursor search with slot := slot }) :
    cursor.On store ∧ cursor.search = search := by
  obtain ⟨own, selected, current, upper, lower, kind⟩ := cursor
  cases hFresh
  exact ⟨⟨rfl, Store.slot_mem hSlot⟩, rfl⟩

end Cursor

namespace ValueRange

variable {range : ValueRange} {cursor other prepared after : Cursor} {store : Store}
  {table : Table} {interval : KeyInterval} {mode : SeekMode} {from? : Option Bookmark}

/-- Applies a range from its start, or from a record. -/
def applyFrom (range : ValueRange) (from? : Option Bookmark) (cursor : Cursor) :
    Outcome Cursor Bool :=
  match from? with
  | none => range.applyFromStart cursor
  | some bookmark => range.applyFromBookmark cursor bookmark

/-- What an application does after its preparation. -/
def place (range : ValueRange) (interval : KeyInterval) (from? : Option Bookmark)
    (prepared : Cursor) : Outcome Cursor Bool :=
  match from? with
  | none =>
    let entered := prepared.enter interval range.mode
    if entered.current.isSome then boundFarEnd interval range.mode entered
    else (.ok false, entered)
  | some bookmark =>
    match prepared.gotoBookmarkWithin bookmark interval range.mode with
    | (.ok true, found) => boundFarEnd interval range.mode found
    | other => other

theorem applyFrom_eq : range.applyFrom from? cursor =
    match range.prepare cursor with
    | (.error e, cursor) => (.error e, cursor)
    | (.ok interval, cursor) => range.place interval from? cursor := by
  cases from? <;> rfl

theorem search_boundFarEnd : (boundFarEnd interval mode cursor).2.search = cursor.search := by
  unfold boundFarEnd
  cases farBound? interval mode with
  | some bound => exact Cursor.search_perform (.setBound bound)
  | none => rfl

theorem sound_boundFarEnd (hSound : cursor.Sound store) :
    (boundFarEnd interval mode cursor).2.Sound store := by
  unfold boundFarEnd
  cases farBound? interval mode with
  | some bound => exact hSound.setBound bound
  | none => exact hSound

/-- The preparation of a cursor depends on its past only in the place that it leaves. -/
theorem prepare_spec (hNames : store.indexNames.Nodup) (hCursor : cursor.On store) :
    ∃ prepared : Cursor,
      range.prepare cursor =
          ((store.slot range.index).bind fun slot => range.intervalFor slot.index.layout,
            prepared) ∧
        ∀ slot, store.slot range.index = .ok slot →
          prepared.land none = { store.cursor cursor.search with slot := slot } := by
  unfold prepare
  cases hSlot : store.slot range.index with
  | error e =>
      have hSelect : cursor.select range.index = (.error e, cursor) := by
        rw [Cursor.select, hCursor.store_eq, hSlot]
      exact ⟨cursor, by rw [hSelect]; rfl, by rintro _ ⟨⟩⟩
  | ok slot =>
      obtain ⟨selected, hSelect, hFresh⟩ := hCursor.select_eq_ok hNames hSlot
      have hLayout : selected.index.layout = slot.index.layout :=
        congrArg (fun cursor : Cursor => cursor.index.layout) hFresh
      refine ⟨selected.clearBounds, ?_, ?_⟩
      · rw [hSelect, Except.bind, ← hLayout]
        rfl
      · rintro _ ⟨⟩
        exact hFresh

section Stored

variable (hTable : table.WellFormed) (hStore : Store.Invariant table store)

include hTable hStore

theorem place_land_none (hCursor : cursor.On store) :
    range.place interval from? (cursor.land none) = range.place interval from? cursor := by
  cases from? with
  | none => simp only [place, Cursor.enter_land_none]
  | some bookmark => simp only [place, hCursor.gotoBookmarkWithin_land_none hTable hStore]

theorem on_place (hCursor : cursor.On store) :
    (range.place interval from? cursor).2.On store ∧
      (range.place interval from? cursor).2.search = cursor.search := by
  cases from? with
  | none =>
      have hEntered := hCursor.sound_enter interval range.mode
      simp only [place]
      split
      · exact ⟨(sound_boundFarEnd hEntered).toOn, search_boundFarEnd.trans Cursor.search_enter⟩
      · exact ⟨hEntered.toOn, Cursor.search_enter⟩
  | some bookmark =>
      obtain ⟨found, after, hGoto, hAfter, -⟩ :=
        hCursor.gotoBookmarkWithin_eq_ok hTable hStore bookmark interval range.mode
      have hSearch := (Cursor.lasting_search cursor.search).gotoBookmarkWithin rfl bookmark interval
        range.mode
      rw [hGoto] at hSearch
      simp only [place, hGoto]
      cases found with
      | true => exact ⟨(sound_boundFarEnd hAfter).toOn, search_boundFarEnd.trans hSearch⟩
      | false => exact ⟨hAfter.toOn, hSearch⟩

/-- Two cursors on a store answer an application alike, and one that succeeds leaves them the same
cursor. -/
theorem applyFrom_congr (hCursor : cursor.On store) (hOther : other.On store)
    (hSearch : cursor.search = other.search) :
    (range.applyFrom from? cursor).1 = (range.applyFrom from? other).1 ∧
      ∀ found, (range.applyFrom from? cursor).1 = .ok found →
        range.applyFrom from? cursor = range.applyFrom from? other ∧
          (range.applyFrom from? cursor).2.On store ∧
          (range.applyFrom from? cursor).2.search = cursor.search := by
  have hNames := Store.indexNames_nodup hTable hStore
  obtain ⟨prepared, hPrepare, hFresh⟩ := @prepare_spec range cursor store hNames hCursor
  obtain ⟨again, hAgain, hFreshAgain⟩ := @prepare_spec range other store hNames hOther
  rw [applyFrom_eq, applyFrom_eq, hPrepare, hAgain]
  cases hInterval : (store.slot range.index).bind fun slot =>
      range.intervalFor slot.index.layout with
  | error e => exact ⟨rfl, nofun⟩
  | ok interval =>
      obtain ⟨slot, hSlot, -⟩ := Except.bind_eq_ok_iff.mp hInterval
      obtain ⟨hPrepared, hOwn⟩ := Cursor.on_of_land_none hSlot (hFresh slot hSlot)
      obtain ⟨hPreparedAgain, -⟩ := Cursor.on_of_land_none hSlot (hFreshAgain slot hSlot)
      have hSame : prepared.land none = again.land none := by
        rw [hFresh slot hSlot, hSearch, hFreshAgain slot hSlot]
      have hPlace : range.place interval from? prepared = range.place interval from? again := by
        rw [← place_land_none hTable hStore hPrepared, hSame,
          place_land_none hTable hStore hPreparedAgain]
      obtain ⟨hAfter, hKept⟩ :=
        @on_place range prepared store table interval from? hTable hStore hPrepared
      exact ⟨congrArg Prod.fst hPlace, fun _ _ => ⟨hPlace, hAfter, hKept.trans hOwn⟩⟩

/-- So an application may be repeated without effect. -/
theorem applyFrom_forgets {found : Bool} (hCursor : cursor.On store) (hOther : other.On store)
    (hSearch : cursor.search = other.search)
    (hFound : range.applyFrom from? cursor = (.ok found, after)) :
    range.applyFrom from? other = (.ok found, after) ∧
      range.applyFrom from? after = (.ok found, after) := by
  have hOk := congrArg Prod.fst hFound
  obtain ⟨hSame, hAfter, hKept⟩ :=
    (applyFrom_congr hTable hStore hCursor hOther hSearch).2 found hOk
  rw [hFound] at hSame hAfter hKept
  obtain ⟨hAgain, -⟩ := (applyFrom_congr hTable hStore hCursor hAfter hKept.symm).2 found hOk
  exact ⟨hSame.symm, hAgain.symm.trans hFound⟩

end Stored

end ValueRange

namespace Scan

variable {scan other : Scan} {limit : Nat}

/-- Scans that return the same under every limit, and come to the same state once they have begun
without an error. -/
structure SameAs (scan other : Scan) : Prop where
  items : ∀ limit, (scan.take limit).items = (other.take limit).items
  ended : ∀ limit, (scan.take limit).ended = (other.take limit).ended
  begun : ∀ found, scan.advance.1 = .ok found → ∀ limit, 0 < limit →
    scan.take limit = other.take limit

theorem SameAs.items_toEnd (hSame : scan.SameAs other)
    (hStore : scan.cursor.store = other.cursor.store) : scan.toEnd.items = other.toEnd.items := by
  rw [toEnd, toEnd, hStore, hSame.items]

theorem take_of_done (hPhase : scan.phase = .done) :
    (take limit scan).items = [] ∧ (take limit scan).ended = decide (0 < limit) := by
  cases limit with
  | zero => exact ⟨rfl, rfl⟩
  | succ limit =>
      rw [take, (answers_of_done hPhase).next_eq]
      exact ⟨rfl, (decide_eq_true (Nat.succ_pos limit)).symm⟩

theorem take_of_advance_error {e : IndexError} (hAdvance : scan.advance.1 = .error e) :
    (take (limit + 1) scan).items = [.error e] ∧
      (take (limit + 1) scan).ended = decide (0 < limit) := by
  have hNext : scan.next = (some (.error e), scan.finish scan.advance.2) :=
    (Answers.failed (Prod.ext hAdvance rfl)).next_eq
  have hDone : (scan.finish scan.advance.2).phase = .done := rfl
  obtain ⟨hItems, hEnded⟩ := @take_of_done (scan.finish scan.advance.2) limit hDone
  rw [take, hNext]
  exact ⟨congrArg (List.cons _) hItems, hEnded⟩

/-- The first answer of a scan depends on its cursor only through the first movement: no record has
been returned that might be skipped. -/
theorem Answers.of_advance_eq {answer : Option (Except IndexError Bookmark) × Scan}
    (hAnswers : scan.Answers answer) (hFilter : scan.filter = other.filter)
    (hSeen : scan.seen = .empty) (hOther : other.seen = .empty)
    (hAdvance : scan.advance = other.advance) : other.Answers answer := by
  obtain ⟨filter, cursor, phase, seen⟩ := scan
  obtain ⟨filter', cursor', phase', seen'⟩ := other
  cases hFilter
  cases hSeen
  cases hOther
  cases hAnswers with
  | failed hFailed => exact .failed (hAdvance.symm.trans hFailed)
  | ended hEnded => exact .ended (hAdvance.symm.trans hEnded)
  | unread hPlaced hBookmark => exact .unread (hAdvance.symm.trans hPlaced) hBookmark
  | returned hPlaced hBookmark hRepeating =>
      exact .returned (hAdvance.symm.trans hPlaced) hBookmark hRepeating
  | first hPlaced hBookmark hDistinct hNew =>
      exact .first (hAdvance.symm.trans hPlaced) hBookmark hDistinct hNew
  | skipped _ _ _ hMet => cases hMet

theorem sameAs_of_advance (hFilter : scan.filter = other.filter) (hSeen : scan.seen = .empty)
    (hOther : other.seen = .empty) (hFirst : scan.advance.1 = other.advance.1)
    (hBegun : ∀ found, scan.advance.1 = .ok found → scan.advance = other.advance) :
    scan.SameAs other := by
  have hTake : ∀ found, scan.advance.1 = .ok found → ∀ limit, 0 < limit →
      scan.take limit = other.take limit := by
    intro found hFound limit hLimit
    obtain ⟨limit, rfl⟩ := Nat.exists_eq_add_one.mpr hLimit
    have hNext : other.next = scan.next :=
      (scan.answers_next.of_advance_eq hFilter hSeen hOther (hBegun found hFound)).next_eq
    rw [take, take, hNext]
  have hResults : ∀ limit, (scan.take limit).items = (other.take limit).items ∧
      (scan.take limit).ended = (other.take limit).ended := by
    intro limit
    cases limit with
    | zero => exact ⟨rfl, rfl⟩
    | succ limit =>
        cases hAdvance : scan.advance.1 with
        | ok found => rw [hTake found hAdvance _ (Nat.succ_pos limit)]; exact ⟨rfl, rfl⟩
        | error e =>
            obtain ⟨hItems, hEnded⟩ := @take_of_advance_error scan limit e hAdvance
            obtain ⟨hItemsOther, hEndedOther⟩ :=
              @take_of_advance_error other limit e (hFirst.symm.trans hAdvance)
            exact ⟨hItems.trans hItemsOther.symm, hEnded.trans hEndedOther.symm⟩
  exact ⟨fun limit => (hResults limit).1, fun limit => (hResults limit).2, hTake⟩

end Scan

namespace Filter

variable {table : Table} {store : Store} {cursor other : Cursor} {name : String}
  {steps : List Declaration} {filter : Filter} {from? : Option Bookmark}

theorem advance_pending :
    (⟨filter, cursor, .pending from?, .empty⟩ : Scan).advance =
      filter.strategy.valueRange.applyFrom from? cursor := by
  cases from? <;> rfl

theorem sameAs_of_on (hTable : table.WellFormed) (hStore : Store.Invariant table store)
    (hCursor : cursor.On store) (hOther : other.On store) (hSearch : cursor.search = other.search) :
    Scan.SameAs ⟨filter, cursor, .pending from?, .empty⟩
      ⟨filter, other, .pending from?, .empty⟩ := by
  obtain ⟨hFirst, hBegun⟩ := @ValueRange.applyFrom_congr filter.strategy.valueRange cursor other
    store table from? hTable hStore hCursor hOther hSearch
  refine Scan.sameAs_of_advance rfl rfl rfl ?_ fun found hFound => ?_
  · rw [advance_pending, advance_pending, hFirst]
  · rw [advance_pending] at hFound
    rw [advance_pending, advance_pending, (hBegun found hFound).1]

theorem on_applyFromStart {found : Bool} (hTable : table.WellFormed)
    (hStore : Store.Invariant table store) (hCursor : cursor.On store)
    (hFound : (filter.applyFromStart cursor).1 = .ok found) :
    (filter.applyFromStart cursor).2.On store ∧
      (filter.applyFromStart cursor).2.search = cursor.search := by
  have hOk : (filter.strategy.valueRange.applyFrom none cursor).1 = .ok found := hFound
  exact ((ValueRange.applyFrom_congr hTable hStore hCursor hCursor rfl).2 found hOk).2

/-- Applying a filter forgets what the cursor did before. An application that succeeds on one cursor
over the store succeeds on every other with the same answer, and leaves both as the same cursor: on
the same index, at the same entry or without a place, and within the same bounds. So it may be
repeated without effect, and a scan does not depend on the cursor that it is given. -/
theorem applications_agree (hDeclare : Table.declare name steps = .ok table)
    (hReachable : Store.Reachable table store) (hCursor : cursor.On store)
    (hOther : other.On store) (hSearch : cursor.search = other.search) (filter : Filter) :
    (∀ found after, filter.applyFromStart cursor = (.ok found, after) →
      filter.applyFromStart other = (.ok found, after) ∧
        filter.applyFromStart after = (.ok found, after)) ∧
    (∀ bookmark found after, filter.applyFromBookmark cursor bookmark = (.ok found, after) →
      filter.applyFromBookmark other bookmark = (.ok found, after) ∧
        filter.applyFromBookmark after bookmark = (.ok found, after)) ∧
    (filter.scan cursor).SameAs (filter.scan other) ∧
    ∀ bookmark, (filter.scanFrom cursor bookmark).SameAs (filter.scanFrom other bookmark) := by
  have hTable := Table.wellFormed_of_declare hDeclare
  have hStore := hReachable.invariant
  refine ⟨fun found after hFound => ?_, fun bookmark found after hFound => ?_, ?_,
    fun bookmark => ?_⟩
  · have hApply : filter.strategy.valueRange.applyFrom none cursor = (.ok found, after) := hFound
    exact ValueRange.applyFrom_forgets hTable hStore hCursor hOther hSearch hApply
  · have hApply : filter.strategy.valueRange.applyFrom (some bookmark) cursor =
        (.ok found, after) := hFound
    exact ValueRange.applyFrom_forgets hTable hStore hCursor hOther hSearch hApply
  · exact sameAs_of_on hTable hStore hCursor hOther hSearch
  · exact sameAs_of_on hTable hStore hCursor hOther hSearch

/-- A range applied to a new cursor and to one that another filter left on the same index, bounded
and beyond the range. -/
theorem applications_agree_after_other :
    let table : Table :=
      { name := "notes"
        columns := [⟨"id", .int32, false, false, 0⟩, ⟨"tags", .text, false, true, 1⟩]
        indices := [⟨"pkNotes", "notes", [⟨"id", .ascending⟩], true, .standard, 1⟩,
          ⟨"byTag", "notes", [⟨"tags", .ascending⟩], false, .standard, 1⟩] }
    let operations : List StoreOperation :=
      [.insert [.int32 7, .list [.text "a", .text "c"]], .insert [.int32 8, .list [.text "b"]]]
    let earlier : Filter := ⟨.exact "byTag" 1 [.text "c"] true, true⟩
    let filter : Filter := ⟨.range "byTag" 1 none (some [.text "b"]) false, true⟩
    ∃ first, Store.create table = .ok first ∧
      let fresh := (operations.foldl Store.apply first).cursor .byValues
      let used := (earlier.applyFromStart fresh).2
      used.lower = some ⟨⟨[2, 99, 0, 0]⟩, .lower, true⟩ ∧
        ∃ after, filter.applyFromStart used = (.ok true, after) ∧
          filter.applyFromStart fresh = (.ok true, after) ∧
          filter.applyFromStart after = (.ok true, after) ∧ after.lower = none ∧
          (filter.scan used).toEnd.items = [.ok ⟨[2, 128, 0, 0, 7]⟩, .ok ⟨[2, 128, 0, 0, 8]⟩] := by
  intro table operations earlier filter
  have hDeclare : Table.declare "notes" [.column "id" .int32, .multiValued "tags" .text,
      .primaryKey ["id"], .orderedIndex "byTag" [⟨"tags", .ascending⟩]] = .ok table := rfl
  obtain ⟨first, hCreate, hEarlier, hLower, hApply, hAfter, hItems⟩ : ∃ first,
      Store.create table = .ok first ∧
      let fresh := (operations.foldl Store.apply first).cursor .byValues
      let used := (earlier.applyFromStart fresh).2
      (earlier.applyFromStart fresh).1 = .ok true ∧
        used.lower = some ⟨⟨[2, 99, 0, 0]⟩, .lower, true⟩ ∧
        (filter.applyFromStart used).1 = .ok true ∧ (filter.applyFromStart used).2.lower = none ∧
        (filter.scan fresh).toEnd.items = [.ok ⟨[2, 128, 0, 0, 7]⟩, .ok ⟨[2, 128, 0, 0, 8]⟩] :=
    ⟨_, rfl, by decide +kernel, by decide +kernel, by decide +kernel, by decide +kernel,
      by decide +kernel⟩
  have hReachable := (Store.Reachable.created hCreate).foldl operations
  have hFresh := Store.cursor_on (operations.foldl Store.apply first) .byValues
  obtain ⟨hUsed, hSearch⟩ := on_applyFromStart (Table.wellFormed_of_declare hDeclare)
    hReachable.invariant hFresh hEarlier
  refine ⟨first, hCreate, hLower, ?_⟩
  -- Of the used cursor enough is known; evaluating it again would be slow.
  generalize (earlier.applyFromStart _).2 = used at hUsed hSearch hApply hAfter ⊢
  obtain ⟨hStart, -, hScan, -⟩ :=
    applications_agree hDeclare hReachable hUsed hFresh hSearch filter
  have hApplied : filter.applyFromStart used = (.ok true, (filter.applyFromStart used).2) :=
    Prod.ext hApply rfl
  obtain ⟨hOther, hAgain⟩ := hStart true _ hApplied
  refine ⟨_, hApplied, hOther, hAgain, hAfter, ?_⟩
  exact (hScan.items_toEnd hUsed.store_eq).trans hItems

end Filter

end IndexedTable

import IndexedTable.Proofs.RecordEntries
import IndexedTable.Proofs.ScanRange

/-! Searching an index for a record by a walk and by computing its entries. Both come to the same
entry, the record's lowest in the interval or its highest, and neither fails. -/

namespace IndexedTable

namespace Cursor

variable {cursor : Cursor} {bookmark : Bookmark} {interval : KeyInterval} {mode : SeekMode}
  {reversed : Bool} {entry : Entry}

/-- An entry of a record in an interval. -/
structure Holds (cursor : Cursor) (bookmark : Bookmark) (interval : KeyInterval) (entry : Entry) :
    Prop where
  indexed : entry ∈ cursor.index.entries.toList
  own : entry.bookmark = bookmark
  start : ∀ start, interval.start = some start → start ≤ entry.key
  stop : ∀ stop, interval.stop = some stop → entry.key ≤ stop

/-- The entry that a search in the mode is for: the lowest of the record in the interval, or the
highest. -/
def Seeks (cursor : Cursor) (bookmark : Bookmark) (interval : KeyInterval) (mode : SeekMode)
    (entry : Entry) : Prop :=
  cursor.Holds bookmark interval entry ∧ ∀ other, cursor.Holds bookmark interval other →
    match mode with
    | .atOrAfter => entry.key ≤ other.key
    | .atOrBefore => other.key ≤ entry.key

/-- The mode of a search in the direction of a scan. -/
def modeOf (reversed : Bool) : SeekMode := if reversed then .atOrBefore else .atOrAfter

theorem exists_modeOf_eq (mode : SeekMode) : ∃ reversed, modeOf reversed = mode := by
  cases mode with
  | atOrAfter => exact ⟨false, rfl⟩
  | atOrBefore => exact ⟨true, rfl⟩

theorem holds_iff : cursor.Holds bookmark interval entry ↔
    entry ∈ ValueRange.hits cursor.index interval reversed ∧ entry.bookmark = bookmark := by
  rw [ValueRange.mem_hits_iff_between]
  exact ⟨fun hHolds => ⟨⟨hHolds.indexed, hHolds.start, hHolds.stop⟩, hHolds.own⟩,
    fun ⟨⟨hIndexed, hStart, hStop⟩, hOwn⟩ => ⟨hIndexed, hOwn, hStart, hStop⟩⟩

theorem isSome_firstOf_iff : (cursor.firstOf bookmark interval reversed).isSome ↔
    ∃ entry, cursor.Holds bookmark interval entry := by
  rw [isSome_firstOf, decide_eq_true_iff, List.mem_map]
  simp only [@holds_iff _ _ _ reversed]

/-- The first entry of the record that a scan meets is its lowest, or its highest. -/
theorem seeks_of_firstOf (hFirst : cursor.firstOf bookmark interval reversed = some entry) :
    cursor.Seeks bookmark interval (modeOf reversed) entry := by
  obtain ⟨hOwn, before, after, hHits, hBefore⟩ := firstOf_eq_some_iff.mp hFirst
  have hPairs : (before ++ entry :: after).Pairwise fun a b => a.precedes reversed b = true := by
    rw [← hHits]
    exact OrderedIndex.path_pairwise.filter _
  have hLater := (List.pairwise_cons.mp (List.pairwise_append.mp hPairs).2.1).1
  refine ⟨(@holds_iff _ _ _ reversed _).mpr ⟨by simp [hHits], hOwn⟩, fun other hOther => ?_⟩
  obtain ⟨hMem, hAlso⟩ := (@holds_iff _ _ _ reversed _).mp hOther
  rw [hHits, List.mem_append, List.mem_cons] at hMem
  have hOrder : other = entry ∨ entry.precedes reversed other = true := by
    rcases hMem with hEarlier | hSame | hAfter
    · exact absurd hAlso (hBefore other hEarlier)
    · exact .inl hSame
    · exact .inr (hLater other hAfter)
  have hRefl : entry.key ≤ entry.key := Key.le_iff_not_gt.mpr (by simp)
  rcases hOrder with rfl | hPrecedes
  · cases reversed <;> exact hRefl
  · cases reversed <;> exact Entry.key_le_of_order (by simpa [Entry.precedes] using hPrecedes)

/-- Going to a record is going to it in the interval without ends. -/
theorem gotoBookmark_eq :
    cursor.gotoBookmark bookmark = cursor.gotoComputed bookmark ⟨none, none⟩ .atOrAfter := by
  have hAll (entries : List Entry) : (entries.filter fun entry =>
      KeyInterval.contains ⟨none, none⟩ entry.key) = entries :=
    List.filter_eq_self.mpr fun _ _ => rfl
  unfold gotoBookmark gotoComputed
  cases cursor.entriesOf bookmark with
  | error e => rfl
  | ok entries => simp only [hAll]

variable {table : Table} {store : Store} {name : String} {steps : List Declaration}

/-- A walk through an interval and the entries computed from the record come to the same. The walk
ends, both tell whether the record has an entry in the interval, and if it has one both stand at its
lowest or highest, in the selected index and without bounds. -/
theorem searches_agree (hDeclare : Table.declare name steps = .ok table)
    (hReachable : Store.Reachable table store) (hCursor : cursor.On store) (bookmark : Bookmark)
    (interval : KeyInterval) (mode : SeekMode) :
    (∃ found walked computed,
      Walks bookmark interval mode (cursor.enter interval mode).placed (.ok found, walked) ∧
      cursor.gotoWalked bookmark interval mode = (.ok found, walked) ∧
      cursor.gotoComputed bookmark interval mode = (.ok found, computed) ∧
      (found = true ↔ ∃ entry, cursor.Holds bookmark interval entry) ∧
      (found = true → walked = computed ∧ computed.slot = cursor.slot ∧ computed.upper = none ∧
        computed.lower = none ∧ ∃ entry, computed.current = some entry ∧
          cursor.Seeks bookmark interval mode entry)) ∧
    cursor.gotoBookmark bookmark = cursor.gotoComputed bookmark ⟨none, none⟩ .atOrAfter := by
  refine ⟨?_, gotoBookmark_eq⟩
  obtain ⟨reversed, rfl⟩ := exists_modeOf_eq mode
  obtain ⟨rfl, hSlot⟩ := hCursor
  have hTable := Table.wellFormed_of_declare hDeclare
  have hStore := hReachable.invariant
  have hNames := Store.indexNames_nodup hTable hStore
  obtain ⟨walked, hWalked, hAfter⟩ := @gotoWalked_spec cursor interval reversed bookmark
  have hComputed := @gotoComputed_eq cursor interval reversed bookmark _ hNames hStore hSlot
  refine ⟨_, walked, _, hWalked ▸ walks_walkTo _, hWalked, hComputed, isSome_firstOf_iff, ?_⟩
  intro hFound
  obtain ⟨entry, hFirst⟩ := Option.isSome_iff_exists.mp hFound
  rw [hAfter entry hFirst, hFirst]
  exact ⟨rfl, rfl, rfl, rfl, entry, rfl, seeks_of_firstOf hFirst⟩

/-- The highest of three entries of a record, in an interval open at that end. -/
theorem searches_agree_of_many_entries :
    let table : Table :=
      { name := "notes"
        columns := [⟨"id", .int32, false, false, 0⟩, ⟨"tags", .text, false, true, 1⟩]
        indices := [⟨"pkNotes", "notes", [⟨"id", .ascending⟩], true, .standard, 1⟩,
          ⟨"byTag", "notes", [⟨"tags", .descending⟩], false, .standard, 1⟩] }
    let operations : List StoreOperation :=
      [.insert [.int32 7, .list [.text "a", .text "b", .text "c"]],
        .insert [.int32 8, .list [.text "c"]], .insert [.int32 9, .list [.text "a"]]]
    let bookmark : Bookmark := ⟨[2, 128, 0, 0, 7]⟩
    let interval : KeyInterval := ⟨some ⟨[253, 157]⟩, none⟩
    ∃ first, Store.create table = .ok first ∧
      let cursor :=
        (((operations.foldl Store.apply first).cursor .byWalk).select (some "byTag")).2
      ∃ placed, placed.key = .ok ⟨[253, 158, 255, 255]⟩ ∧
        cursor.gotoWalked bookmark interval .atOrBefore = (.ok true, placed) ∧
        cursor.gotoComputed bookmark interval .atOrBefore = (.ok true, placed) := by
  intro table operations bookmark interval
  have hDeclare : Table.declare "notes" [.column "id" .int32, .multiValued "tags" .text,
      .primaryKey ["id"], .orderedIndex "byTag" [⟨"tags", .descending⟩]] = .ok table := rfl
  obtain ⟨first, hCreate, hFound, hKey⟩ : ∃ first, Store.create table = .ok first ∧
      ((((operations.foldl Store.apply first).cursor .byWalk).select
        (some "byTag")).2.gotoComputed bookmark interval .atOrBefore).1 = .ok true ∧
      ((((operations.foldl Store.apply first).cursor .byWalk).select
        (some "byTag")).2.gotoComputed bookmark interval .atOrBefore).2.key =
          .ok ⟨[253, 158, 255, 255]⟩ :=
    ⟨_, rfl, by decide +kernel, by decide +kernel⟩
  have hReachable := (Store.Reachable.created hCreate).foldl operations
  obtain ⟨⟨found, walked, computed, -, hWalked, hComputed, -, hPlaced⟩, -⟩ :=
    searches_agree hDeclare hReachable ((Store.cursor_on _ .byWalk).select (some "byTag")) bookmark
      interval .atOrBefore
  rw [hComputed] at hFound hKey
  obtain rfl : found = true := Except.ok.inj hFound
  obtain ⟨rfl, -⟩ := hPlaced rfl
  exact ⟨first, hCreate, walked, hKey, hWalked, hComputed⟩

end Cursor

end IndexedTable

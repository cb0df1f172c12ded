import IndexedTable.Proofs.EntryKeys
import IndexedTable.Proofs.PlanBinding

/-! What a scan enumerates: the entries of its index whose keys lie between the keys of its two
ends, in ascending order or in exactly the reverse, and nothing after them. -/

namespace IndexedTable

/-- The bookmarks that a filter returns of some entries: all of them, or each at its first place. -/
def Filter.returned (filter : Filter) (entries : List Entry) : List Bookmark :=
  if filter.distinct then (entries.map (·.bookmark)).eraseDups else entries.map (·.bookmark)

namespace Scan

variable {scan : Scan}

/-- A scan that visits some entries: its calls return their records without an error up to one that
finds nothing, however many they are, and after that every call finds nothing. -/
structure Visits (scan : Scan) (entries : List Entry) : Prop where
  yields : scan.Yields ((scan.filter.returned entries).map .ok) scan.toEnd.scan
  stays : scan.toEnd.scan.Answers (none, scan.toEnd.scan)
  items : scan.toEnd.items = (scan.filter.returned entries).map .ok
  ended : scan.toEnd.ended = true
  exhausted : scan.toEnd.scan.next = (none, scan.toEnd.scan)

theorem map_unseen {seen : SeenBookmarks} {entries : List Entry} :
    (unseen seen entries).map (·.bookmark) =
      ((entries.map (·.bookmark)).filter fun bookmark => !seen.contains bookmark).eraseDups := by
  induction entries generalizing seen with
  | nil => rfl
  | cons entry entries ih =>
      rw [unseen, List.map_cons, List.filter_cons]
      cases hSeen : seen.contains entry.bookmark with
      | true => simpa using ih
      | false =>
          have hRest : ∀ bookmark, (!(seen.insert entry.bookmark).contains bookmark) =
              (!bookmark == entry.bookmark && !seen.contains bookmark) := by
            intro bookmark
            rw [contains_insert, Bool.not_or, decide_eq_decide.mpr eq_comm]
            rfl
          simp only [Bool.false_eq_true, if_false, Bool.not_false, if_true, List.map_cons, ih,
            List.eraseDups_cons, List.filter_filter, hRest]

theorem map_kept {entries : List Entry} (hSeen : scan.seen = .empty) :
    (scan.kept entries).map (·.bookmark) = scan.filter.returned entries := by
  have hNone : (fun bookmark => !SeenBookmarks.empty.contains bookmark) = fun _ => true := rfl
  rw [kept, Filter.returned, hSeen]
  cases scan.filter.distinct with
  | false => rfl
  | true => rw [if_pos rfl, if_pos rfl, map_unseen, hNone, List.filter_true]

theorem visits_of_meets {entries : List Entry} (hSeen : scan.seen = .empty)
    (hMeets : scan.Meets entries) (hLength : entries.length ≤ entryCount scan.cursor.store) :
    scan.Visits entries := by
  obtain ⟨hItems, hEnded⟩ := toEnd_of_meets hMeets hLength
  have hReturned : scan.toEnd.items = (scan.filter.returned entries).map .ok := by
    rw [hItems, ← map_kept hSeen, List.map_map]
    rfl
  have hYields : scan.Yields scan.toEnd.items scan.toEnd.scan := yields_take hEnded
  have hStays := hYields.answers_after
  rw [hReturned] at hYields
  exact ⟨hYields, hStays, hReturned, hEnded, hStays.next_eq⟩

end Scan

namespace Filter

variable {filter : Filter} {cursor : Cursor} {slot : Slot} {interval : KeyInterval}

/-- A scan visits the entries of its interval. -/
theorem visits_scan (hNames : cursor.store.indexNames.Nodup)
    (hCursor : cursor.slot ∈ cursor.store.clustering :: cursor.store.secondary)
    (hSlot : cursor.store.slot filter.strategy.valueRange.index = .ok slot)
    (hInterval : filter.strategy.valueRange.intervalFor slot.index.layout = .ok interval) :
    (filter.scan cursor).Visits
      (ValueRange.hits slot.index interval filter.strategy.reversed) :=
  Scan.visits_of_meets rfl (meets_scan hNames hCursor hSlot hInterval)
    (ValueRange.length_hits_le (Store.slot_mem hSlot))

end Filter

namespace ScanStrategy

theorem index_valueRange (strategy : ScanStrategy) :
    strategy.valueRange.index = strategy.index := by
  cases strategy <;> rfl

/-- Whether a scan of an index of the given width gives no value to begin with and none to end
with. -/
def Unbounded (width : Nat) : ScanStrategy → Prop
  | wholeIndex _ _ => True
  | exact _ own values _ => own = width ∧ values = []
  | range _ own start stop _ => own = width ∧ start.getD [] = [] ∧ stop.getD [] = []
  | leading _ _ => False

end ScanStrategy

namespace KeyLayout

theorem makeKey_nil (layout : KeyLayout) {limit : KeyLimit} (hPartial : limit.isPartial = false) :
    layout.makeKey [] limit = .ok ⟨limitMark limit⟩ := by
  rw [makeKey_of_coerce? coerce?_nil hPartial]
  cases layout <;> rfl

end KeyLayout

namespace ValueRange

variable {index : OrderedIndex} {interval : KeyInterval} {layout : KeyLayout}

theorem mem_hits_iff_between {entry : Entry} {reversed : Bool} :
    entry ∈ hits index interval reversed ↔ entry ∈ index.entries.toList ∧
      (∀ start, interval.start = some start → start ≤ entry.key) ∧
      ∀ stop, interval.stop = some stop → entry.key ≤ stop := by
  rw [mem_hits, KeyInterval.contains, Bool.and_eq_true, Option.all_eq_true, Option.all_eq_true]
  simp only [decide_eq_true_eq]

theorem hits_reversed : hits index interval true = (hits index interval false).reverse :=
  List.filter_reverse

theorem hits_eq_path {reversed : Bool}
    (hAll : ∀ entry ∈ index.entries.toList, interval.contains entry.key = true) :
    hits index interval reversed = index.path reversed :=
  List.filter_eq_self.mpr fun entry hEntry => hAll entry (OrderedIndex.mem_path.mp hEntry)

theorem Spans.startKey_nil {range : ValueRange} {stop : List Value} {width : Nat}
    (hSpans : range.Spans width [] stop) : ∃ start,
    (range.start.mapM fun (values, limit) => layout.makeKey values limit) = .ok start ∧
      ∀ key : Key, start.all (fun start => decide (start ≤ key)) = true := by
  rcases hSpans.start with ⟨hNone, -⟩ | ⟨limit, hSome, hLimit⟩
  · exact ⟨none, by rw [hNone]; rfl, fun _ => rfl⟩
  · have hMake : layout.makeKey [] limit = .ok ⟨[]⟩ := by
      rcases hLimit with rfl | rfl <;> exact layout.makeKey_nil rfl
    refine ⟨some ⟨[]⟩, by simp only [hSome, Option.mapM_some, hMake]; rfl, fun key => ?_⟩
    rw [Option.all_some, decide_eq_true_iff]
    exact Key.le_iff_not_lt.mpr (KeyLayout.compare_bytes_nil key.bytes)

theorem Spans.stopKey_nil {range : ValueRange} {start : List Value} {width : Nat}
    (hWidth : 0 < width) (hSpans : range.Spans width start []) : ∃ stop,
    (range.stop.mapM fun (values, limit) => layout.makeKey values limit) = .ok stop ∧
      ∀ key : Key, compare key.bytes KeyLayout.rangeEndMark = .lt →
        stop.all (fun stop => decide (key ≤ stop)) = true := by
  rcases hSpans.stop with ⟨hNone, -⟩ | ⟨limit, hSome, hLimit⟩
  · exact ⟨none, by rw [hNone]; rfl, fun _ _ => rfl⟩
  · obtain rfl : limit = .rangeEnd := by
      rcases hLimit with hLimit | ⟨-, hFull⟩
      · exact hLimit
      · exact absurd hFull (Nat.ne_of_lt hWidth)
    refine ⟨some ⟨KeyLayout.rangeEndMark⟩, ?_, fun key hBelow => ?_⟩
    · simp only [hSome, Option.mapM_some, @KeyLayout.makeKey_nil layout .rangeEnd rfl]
      rfl
    · have hCompare : compare key ⟨KeyLayout.rangeEndMark⟩ = .lt := hBelow
      rw [Option.all_some, decide_eq_true_iff, Key.le_iff_not_gt, hCompare]
      decide

theorem spans_of_unbounded {strategy : ScanStrategy} {width : Nat} (hWidth : 0 < width)
    (hUnbounded : strategy.Unbounded width) : strategy.valueRange.Spans width [] [] := by
  have hLimit (shorter : KeyLimit) : ScanStrategy.limitFor width shorter [] = ([], shorter) := by
    simp [ScanStrategy.limitFor, hWidth]
  cases strategy with
  | wholeIndex => exact ⟨.inl ⟨rfl, rfl⟩, .inl ⟨rfl, rfl⟩⟩
  | exact =>
      obtain ⟨rfl, rfl⟩ := hUnbounded
      exact ⟨.inr ⟨.rangeStart, congrArg some (hLimit _), .inl rfl⟩,
        .inr ⟨.rangeEnd, rfl, .inl rfl⟩⟩
  | range _ _ start stop =>
      obtain ⟨rfl, hStart, hStop⟩ := hUnbounded
      constructor
      · cases start with
        | none => exact .inl ⟨rfl, rfl⟩
        | some values =>
            obtain rfl : values = [] := hStart
            exact .inr ⟨.rangeStart, congrArg some (hLimit _), .inl rfl⟩
      · cases stop with
        | none => exact .inl ⟨rfl, rfl⟩
        | some values =>
            obtain rfl : values = [] := hStop
            exact .inr ⟨.rangeEnd, congrArg some (hLimit _), .inl rfl⟩
  | leading => exact hUnbounded.elim

/-- The keys of an interval without values at its ends hold every key below the mark. -/
theorem interval_of_unbounded {strategy : ScanStrategy} (hLayout : layout ≠ [])
    (hUnbounded : strategy.Unbounded layout.width) :
    ∃ interval, strategy.valueRange.intervalFor layout = .ok interval ∧
      ∀ key : Key, compare key.bytes KeyLayout.rangeEndMark = .lt →
        interval.contains key = true := by
  have hWidth : 0 < layout.width := List.length_pos_iff.mpr hLayout
  have hSpans := spans_of_unbounded hWidth hUnbounded
  obtain ⟨start, hStart, hAfter⟩ := hSpans.startKey_nil
  obtain ⟨stop, hStop, hBefore⟩ := hSpans.stopKey_nil hWidth
  refine ⟨⟨start, stop⟩, ?_, fun key hBelow => ?_⟩
  · rw [intervalFor, hStart, hStop]
    rfl
  · rw [KeyInterval.contains, Bool.and_eq_true]
    exact ⟨hAfter key, hBefore key hBelow⟩

end ValueRange

namespace Store

variable {table : Table} {store : Store} {slot : Slot} {filter : Filter} {cursor : Cursor}
  {interval : KeyInterval} {name : String} {steps : List Declaration}

theorem layout_ne_nil (hTable : table.WellFormed) (hStore : Invariant table store)
    (hSlot : slot ∈ store.clustering :: store.secondary) : slot.index.layout ≠ [] := by
  rcases exists_create_of_mem hStore hSlot with hSequence | ⟨index, hIndex, hCreate⟩
  · have hLayout : slot.clear.index.layout = [⟨.int64, .ascending⟩] := by
      rw [hSequence]
      rfl
    exact hLayout ▸ List.cons_ne_nil _ _
  · obtain ⟨columns, hKeyed⟩ := Slot.keyedBy_of_create hCreate
    have hWidth : 0 < index.width := List.length_pos_iff.mpr (hTable.proper index hIndex).nonempty
    rw [← hKeyed.width] at hWidth
    exact List.length_pos_iff.mp hWidth

/-- A scan of a reachable store visits the entries of its interval. -/
theorem Reachable.visits_scan (hReachable : Reachable table store) (hTable : table.WellFormed)
    (hCursor : cursor.On store) (hSlot : store.slot filter.strategy.index = .ok slot)
    (hInterval : filter.strategy.valueRange.intervalFor slot.index.layout = .ok interval) :
    (filter.scan cursor).Visits
      (ValueRange.hits slot.index interval filter.strategy.reversed) := by
  obtain ⟨rfl, hOn⟩ := hCursor
  rw [← ScanStrategy.index_valueRange] at hSlot
  exact Filter.visits_scan (indexNames_nodup hTable hReachable.invariant) hOn hSlot hInterval

/-- A scan whose ends give no values visits its whole index. -/
theorem visits_of_unbounded (hTable : table.WellFormed) (hReachable : Reachable table store)
    (hCursor : cursor.On store) (hSlot : store.slot filter.strategy.index = .ok slot)
    (hUnbounded : filter.strategy.Unbounded slot.index.layout.width) :
    (filter.scan cursor).Visits (slot.index.path filter.strategy.reversed) := by
  have hMem := slot_mem hSlot
  obtain ⟨interval, hInterval, hAll⟩ :=
    ValueRange.interval_of_unbounded (layout_ne_nil hTable hReachable.invariant hMem) hUnbounded
  have hVisits := hReachable.visits_scan hTable hCursor hSlot hInterval
  rwa [ValueRange.hits_eq_path] at hVisits
  intro entry hEntry
  obtain ⟨values, hKey⟩ := hReachable.exists_makeKey hMem hEntry
  exact hAll entry.key (KeyLayout.compare_makeKey_rangeEndMark hKey)

/-- A scan visits, in ascending order or in the reverse, the entries whose keys lie between the
keys of its ends. Without values at its ends, it visits what a scan of the whole index does. -/
theorem scan_visits_range (hDeclare : Table.declare name steps = .ok table)
    (hReachable : Reachable table store) (hCursor : cursor.On store)
    (hSlot : store.slot filter.strategy.index = .ok slot) :
    (∀ interval, filter.strategy.valueRange.intervalFor slot.index.layout = .ok interval →
      ∃ visited : List Entry, visited.Pairwise (fun a b => Entry.order a b = .lt) ∧
        (∀ entry, entry ∈ visited ↔ entry ∈ slot.index.entries.toList ∧
          (∀ start, interval.start = some start → start ≤ entry.key) ∧
          ∀ stop, interval.stop = some stop → entry.key ≤ stop) ∧
        (filter.scan cursor).Visits (if filter.strategy.reversed then visited.reverse else visited) ∧
        ∀ start stop, interval.start = some start → interval.stop = some stop → stop < start →
          (filter.scan cursor).toEnd.items = []) ∧
      (filter.strategy.Unbounded slot.index.layout.width → ∀ other : Cursor, other.On store →
        let whole : Filter :=
          ⟨.wholeIndex filter.strategy.index filter.strategy.reversed, filter.distinct⟩
        (filter.scan cursor).Visits (slot.index.path filter.strategy.reversed) ∧
          (whole.scan other).Visits (slot.index.path filter.strategy.reversed)) := by
  have hTable := Table.wellFormed_of_declare hDeclare
  refine ⟨fun interval hInterval => ?_, fun hUnbounded other hOther => ?_⟩
  · have hVisits := hReachable.visits_scan hTable hCursor hSlot hInterval
    have hHits : ValueRange.hits slot.index interval filter.strategy.reversed =
        if filter.strategy.reversed then (ValueRange.hits slot.index interval false).reverse
        else ValueRange.hits slot.index interval false := by
      cases filter.strategy.reversed with
      | false => rfl
      | true => exact ValueRange.hits_reversed
    refine ⟨ValueRange.hits slot.index interval false, slot.index.entries.ascending.filter _,
      fun entry => ValueRange.mem_hits_iff_between, hHits ▸ hVisits,
      fun start stop hStart hStop hLess => ?_⟩
    have hNone : ValueRange.hits slot.index interval filter.strategy.reversed = [] := by
      refine List.eq_nil_iff_forall_not_mem.mpr fun entry hEntry => ?_
      obtain ⟨-, hAfter, hBefore⟩ := ValueRange.mem_hits_iff_between.mp hEntry
      have hLe : start ≤ stop := Std.TransCmp.isLE_trans (hAfter start hStart) (hBefore stop hStop)
      exact Key.le_iff_not_lt.mp hLe hLess
    rw [hVisits.items, hNone]
    unfold Filter.returned
    split <;> rfl
  · intro whole
    refine ⟨visits_of_unbounded hTable hReachable hCursor hSlot hUnbounded, ?_⟩
    have hWhole : whole.strategy.index = filter.strategy.index := rfl
    exact visits_of_unbounded hTable hReachable hOther (hWhole ▸ hSlot) trivial

/-- A scan back to the first entry, over an index with several entries for a record. -/
theorem scan_visits_range_of_reversed :
    let table : Table :=
      { name := "notes"
        columns := [⟨"id", .int32, false, false, 0⟩, ⟨"tags", .text, false, true, 1⟩]
        indices := [⟨"pkNotes", "notes", [⟨"id", .ascending⟩], true, .standard, 1⟩,
          ⟨"byTag", "notes", [⟨"tags", .descending⟩], false, .standard, 1⟩] }
    let filter : Filter := ⟨.range "byTag" 1 none (some [.text "b"]) true, true⟩
    let operations : List StoreOperation :=
      [.insert [.int32 7, .list [.text "a", .text "b", .text "c"]],
        .insert [.int32 8, .list [.text "c"]], .insert [.int32 9, .list [.text "a"]]]
    ∃ first, create table = .ok first ∧
      let cursor := (operations.foldl apply first).cursor .byValues
      (filter.scan cursor).toEnd.items =
          [.ok ⟨[2, 128, 0, 0, 7]⟩, .ok ⟨[2, 128, 0, 0, 8]⟩] ∧
        ∃ visited : List Entry, visited.Pairwise (fun a b => Entry.order a b = .lt) ∧
          (filter.scan cursor).Visits visited.reverse := by
  intro table filter operations
  have hDeclare : Table.declare "notes" [.column "id" .int32, .multiValued "tags" .text,
      .primaryKey ["id"], .orderedIndex "byTag" [⟨"tags", .descending⟩]] = .ok table := rfl
  obtain ⟨first, hCreate, hFound, hItems⟩ : ∃ first, create table = .ok first ∧
      ((operations.foldl apply first).slot (some "byTag")).map (·.index.layout) =
        .ok [⟨.text, .descending⟩] ∧
      (filter.scan ((operations.foldl apply first).cursor .byValues)).toEnd.items =
        [.ok ⟨[2, 128, 0, 0, 7]⟩, .ok ⟨[2, 128, 0, 0, 8]⟩] :=
    ⟨_, rfl, by decide +kernel, by decide +kernel⟩
  have hReachable := (Reachable.created hCreate).foldl operations
  obtain ⟨slot, hSlot, hLayout⟩ := Except.map_eq_ok_iff.mp hFound
  have hSelected : (operations.foldl apply first).slot filter.strategy.index = .ok slot := hSlot
  obtain ⟨interval, hInterval⟩ : ∃ interval,
      filter.strategy.valueRange.intervalFor slot.index.layout = .ok interval := by
    rw [hLayout]
    exact ⟨_, rfl⟩
  obtain ⟨visited, hOrdered, -, hVisits, -⟩ :=
    (scan_visits_range hDeclare hReachable (cursor_on _ .byValues) hSelected).1 interval hInterval
  exact ⟨first, hCreate, hItems, visited, hOrdered, hVisits⟩

end Store

end IndexedTable

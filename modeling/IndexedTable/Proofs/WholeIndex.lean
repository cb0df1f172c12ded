import IndexedTable.Proofs.PrimaryKeys
import IndexedTable.Proofs.ScanAnswers
import IndexedTable.Proofs.ScanResume

/-! Scans of a whole index. A record has one entry in the clustering index, at least one in an index
without suffixes, since an empty list counts as null, and none in an index over suffixes if every
element of its column is null. It has several only where the index holds suffixes or has a
multi-valued column, and there a plan asks for each record once. -/

namespace IndexedTable

namespace Scan

variable {scan : Scan} {store : Store} {wanted : Row → Prop} {entries : List Entry}

/-- A scan that returns each stored record with a property once and nothing else, and then ends. -/
structure ReturnsOnce (scan : Scan) (store : Store) (wanted : Row → Prop) (found : List Bookmark) :
    Prop where
  items : scan.toEnd.items = found.map .ok
  ended : scan.toEnd.ended = true
  exhausted : scan.toEnd.scan.next = (none, scan.toEnd.scan)
  once : found.Nodup
  mem_found : ∀ bookmark, bookmark ∈ found ↔ ∃ row, store.get? bookmark = some row ∧ wanted row

theorem mem_returned {filter : Filter} {bookmark : Bookmark} :
    bookmark ∈ filter.returned entries ↔ bookmark ∈ entries.map (·.bookmark) := by
  unfold Filter.returned
  split
  · exact List.mem_eraseDups
  · exact Iff.rfl

theorem nodup_returned {filter : Filter}
    (hOnce : filter.distinct = false → (entries.map (·.bookmark)).Nodup) :
    (filter.returned entries).Nodup := by
  unfold Filter.returned
  split
  · exact List.nodup_eraseDups _
  · rename_i hDistinct
    exact hOnce (by simpa using hDistinct)

theorem Visits.returnsOnce (hVisits : scan.Visits entries)
    (hOnce : scan.filter.distinct = false → (entries.map (·.bookmark)).Nodup)
    (hWanted : ∀ bookmark, bookmark ∈ entries.map (·.bookmark) ↔
      ∃ record ∈ store.records.toList, record.bookmark = bookmark ∧ wanted record.row) :
    ∃ found, scan.ReturnsOnce store wanted found := by
  refine ⟨_, hVisits.items, hVisits.ended, hVisits.exhausted, nodup_returned hOnce, ?_⟩
  intro bookmark
  rw [mem_returned, hWanted, Store.exists_record_iff]

end Scan

namespace Slot

variable {slot : Slot} {table : Table} {records : OrderedSet StoredRecord StoredRecord.order}
  {index : IndexDefinition} {column : Column} {columns : List Column} {bookmark : Bookmark}

theorem nodup_bookmarks (hOwn : ∀ entry ∈ slot.index.entries.toList,
    ∀ other ∈ slot.index.entries.toList, entry.bookmark = other.bookmark → entry = other) :
    (slot.index.entries.toList.map (·.bookmark)).Nodup := by
  have hEntries : slot.index.entries.toList.Nodup := by
    refine slot.index.entries.ascending.imp fun hLess hSame => ?_
    simp [hSame, Std.ReflCmp.compare_self] at hLess
  exact hEntries.map_on hOwn

theorem exists_chooses (row : Row) (columns : List Column) :
    ∃ values, Chooses row columns values := by
  induction columns with
  | nil => exact ⟨[], .nil⟩
  | cons column columns ih =>
      obtain ⟨element, hElement⟩ := column.exists_mem_elements row
      obtain ⟨values, hChooses⟩ := ih
      exact ⟨element :: values, .cons hElement hChooses⟩

/-- Every record has an entry in an index without suffixes. -/
theorem Indexes.mem_bookmarks_iff (hIndexes : slot.Indexes table records.toList index columns) :
    bookmark ∈ slot.index.entries.toList.map (·.bookmark) ↔
      ∃ record ∈ records.toList, record.bookmark = bookmark := by
  simp only [List.mem_map, hIndexes.mem_entries]
  constructor
  · rintro ⟨_, ⟨record, hRecord, values, -, rfl⟩, rfl⟩
    exact ⟨record, hRecord, rfl⟩
  · rintro ⟨record, hRecord, rfl⟩
    obtain ⟨values, hChooses⟩ := exists_chooses record.row columns
    exact ⟨_, ⟨record, hRecord, values, hChooses, rfl⟩, rfl⟩

/-- Without a multi-valued column it has no second one. -/
theorem Indexes.nodup_bookmarks (hIndexes : slot.Indexes table records.toList index columns)
    (hOnce : index.repeatsRecords table = false) :
    (slot.index.entries.toList.map (·.bookmark)).Nodup := by
  have hSingle := hIndexes.single_of_repeatsRecords hOnce
  apply Slot.nodup_bookmarks
  intro entry hEntry other hOther hSame
  obtain ⟨record, hRecord, values, hChooses, rfl⟩ := (hIndexes.mem_entries entry).mp hEntry
  obtain ⟨again, hAgain, others, hOthers, rfl⟩ := (hIndexes.mem_entries other).mp hOther
  obtain rfl := StoredRecord.eq_of_bookmark_eq hRecord hAgain hSame
  rw [chooses_of_single hSingle] at hChooses hOthers
  rw [hChooses, hOthers]

/-- A record has an entry in an index over suffixes unless every element is null. -/
theorem IndexesSuffixes.mem_bookmarks_iff_ne_null
    (hSuffixes : slot.IndexesSuffixes records.toList index column)
    (hType : column.type.supportsPartialMatch = true) :
    bookmark ∈ slot.index.entries.toList.map (·.bookmark) ↔
      ∃ record ∈ records.toList, record.bookmark = bookmark ∧
        ∃ element ∈ column.elements record.row, element ≠ .null := by
  simp only [List.mem_map, hSuffixes.mem_entries]
  constructor
  · rintro ⟨_, ⟨record, hRecord, element, hElement, suffix, hSuffix, rfl⟩, rfl⟩
    refine ⟨record, hRecord, rfl, element, hElement, ?_⟩
    rintro rfl
    cases hSuffix
  · rintro ⟨record, hRecord, rfl, element, hElement, hValue⟩
    have hOwn := (hSuffixes.fits record hRecord element hElement).resolve_left hValue
    refine ⟨_, ⟨record, hRecord, element, hElement, element, ?_, rfl⟩, rfl⟩
    exact Value.mem_suffixes_self hType hOwn

end Slot

namespace Table

variable {table : Table} {index : IndexDefinition} {target : Option String} {plan : Plan}
  {direction : Direction}

theorem index?_of_mem (hTable : table.WellFormed) (hIndex : index ∈ table.indices) :
    table.index? index.name = some index := by
  unfold index?
  cases hFind : table.indices.find? fun other => other.name == index.name with
  | none => simpa using List.find?_eq_none.mp hFind index hIndex
  | some found =>
      have hName : found.name = index.name := by simpa using List.find?_some hFind
      rw [List.inj_on_of_nodup_map hTable.indexNames (List.mem_of_find?_eq_some hFind) hIndex hName]

/-- The plan for every entry of a declared index. -/
def wholePlan (table : Table) (index : IndexDefinition) (direction : Direction) : Plan :=
  ⟨index.width, index.repeatsRecords table, .wholeIndex (some index.name) direction.isDescending⟩

theorem planWhole_of_mem (hTable : table.WellFormed) (hIndex : index ∈ table.indices)
    (direction : Direction) :
    table.planWhole (some index.name) direction = .ok (table.wholePlan index direction) := by
  rw [planWhole, indexForPlan, index?_of_mem hTable hIndex]
  rfl

theorem indexForPlan_eq_ok {name : String} (hIndex : table.indexForPlan name = .ok index) :
    index ∈ table.indices ∧ index.name = name := by
  unfold indexForPlan index? at hIndex
  cases hFind : table.indices.find? fun index => index.name == name with
  | none => simp [hFind] at hIndex
  | some found =>
      rw [hFind] at hIndex
      obtain rfl := Except.ok.inj hIndex
      exact ⟨List.mem_of_find?_eq_some hFind, by simpa using List.find?_some hFind⟩

theorem planWhole_eq_ok (hPlan : table.planWhole target direction = .ok plan) :
    (target = none ∧ plan = ⟨0, false, .wholeIndex none direction.isDescending⟩) ∨
      ∃ index ∈ table.indices, target = some index.name ∧
        plan = table.wholePlan index direction := by
  cases target with
  | none => exact .inl ⟨rfl, (Except.ok.inj hPlan).symm⟩
  | some name =>
      obtain ⟨index, hFound, hRest⟩ := Except.bind_eq_ok_iff.mp hPlan
      obtain ⟨hIndex, rfl⟩ := indexForPlan_eq_ok hFound
      exact .inr ⟨index, hIndex, rfl, (Except.ok.inj hRest).symm⟩

end Table

namespace Store

variable {table : Table} {store : Store} {cursor : Cursor} {slot : Slot} {target : Option String}
  {distinct : Bool} {name : String} {steps : List Declaration}

/-- The clustering index holds every record once. -/
theorem Invariant.mem_clustering_bookmarks_iff (hStore : Invariant table store)
    {bookmark : Bookmark} :
    bookmark ∈ store.clustering.index.entries.toList.map (·.bookmark) ↔
      ∃ record ∈ store.records.toList, record.bookmark = bookmark := by
  simp only [List.mem_map, hStore.clustered]
  constructor
  · rintro ⟨_, ⟨record, hRecord, rfl⟩, rfl⟩
    exact ⟨record, hRecord, rfl⟩
  · rintro ⟨record, hRecord, rfl⟩
    exact ⟨_, ⟨record, hRecord, rfl⟩, rfl⟩

theorem Invariant.nodup_clustering_bookmarks (hStore : Invariant table store) :
    (store.clustering.index.entries.toList.map (·.bookmark)).Nodup := by
  apply Slot.nodup_bookmarks
  intro entry hEntry other hOther hSame
  obtain ⟨record, -, rfl⟩ := (hStore.clustered entry).mp hEntry
  obtain ⟨again, -, rfl⟩ := (hStore.clustered other).mp hOther
  exact congrArg Entry.clustering hSame

/-- An index of which a plan does not ask for each record once has one entry for each. -/
theorem nodup_bookmarks_of_planWhole {direction : Direction} {plan : Plan}
    (hTable : table.WellFormed) (hStore : Invariant table store)
    (hPlan : table.planWhole target direction = .ok plan) (hDistinct : plan.distinct = false)
    (hSlot : store.slot target = .ok slot) :
    (slot.index.entries.toList.map (·.bookmark)).Nodup := by
  rcases Table.planWhole_eq_ok hPlan with ⟨rfl, rfl⟩ | ⟨index, hIndex, rfl, rfl⟩
  · obtain rfl := Except.ok.inj hSlot
    exact hStore.nodup_clustering_bookmarks
  · have hOnce : index.repeatsRecords table = false := hDistinct
    have hTuple : index.isTuple = false := (Bool.or_eq_false_iff.mp hOnce).1
    obtain ⟨found, columns, hFound, hIndexes⟩ := exists_indexes hTable hStore hIndex hTuple
    obtain rfl := Except.ok.inj (hFound.symm.trans hSlot)
    exact hIndexes.nodup_bookmarks hOnce

/-- A scan of a whole index, where the index has entries of the records that are wanted. -/
theorem exists_returnsOnce (hTable : table.WellFormed) (hReachable : Reachable table store)
    (hCursor : cursor.On store) (hSlot : store.slot target = .ok slot)
    (hOnce : distinct = false → (slot.index.entries.toList.map (·.bookmark)).Nodup)
    (wanted : Row → Prop)
    (hWanted : ∀ bookmark, bookmark ∈ slot.index.entries.toList.map (·.bookmark) ↔
      ∃ record ∈ store.records.toList, record.bookmark = bookmark ∧ wanted record.row)
    (reversed : Bool) :
    ∃ found, (Filter.scan ⟨.wholeIndex target reversed, distinct⟩ cursor).ReturnsOnce store wanted
      found := by
  have hVisits : (Filter.scan ⟨.wholeIndex target reversed, distinct⟩ cursor).Visits
      (slot.index.path reversed) :=
    visits_of_unbounded hTable hReachable hCursor hSlot trivial
  apply hVisits.returnsOnce
  · exact fun hDistinct => Filter.nodup_map_path (hOnce hDistinct)
  · intro bookmark
    rw [← hWanted]
    simp only [List.mem_map, OrderedIndex.mem_path]

/-- The scan of a whole index returns each record once: every record from the clustering index and
from any index without suffixes, and from another index over suffixes those with an element that is
not null. Where two entries belong to one record, the plan asks for each record once. -/
theorem wholeIndex_returnsOnce (hDeclare : Table.declare name steps = .ok table)
    (hReachable : Reachable table store) (hCursor : cursor.On store) (direction : Direction)
    (arguments : List Value) :
    (∃ plan filter found, table.planWhole none direction = .ok plan ∧
      plan.bind arguments = .ok filter ∧
      (filter.scan cursor).ReturnsOnce store (fun _ => True) found) ∧
    (∀ index ∈ table.indices, ∃ plan filter,
      table.planWhole (some index.name) direction = .ok plan ∧
      plan.bind arguments = .ok filter ∧
      (index.isTuple = false →
        ∃ found, (filter.scan cursor).ReturnsOnce store (fun _ => True) found) ∧
      (index.isTuple = true → index.primary = false →
        ∃ part column found, index.columns = [part] ∧ table.column? part.column = some column ∧
          (filter.scan cursor).ReturnsOnce store
            (fun row => ∃ element ∈ column.elements row, element ≠ .null) found)) ∧
    ∀ target plan slot, table.planWhole target direction = .ok plan →
      store.slot target = .ok slot → ∀ entry ∈ slot.index.entries.toList,
        ∀ other ∈ slot.index.entries.toList,
          entry.bookmark = other.bookmark → entry ≠ other → plan.distinct = true := by
  have hTable := Table.wellFormed_of_declare hDeclare
  have hStore := hReachable.invariant
  refine ⟨?_, fun index hIndex => ?_, ?_⟩
  · obtain ⟨found, hFound⟩ := exists_returnsOnce hTable hReachable hCursor
      (show store.slot none = .ok store.clustering from rfl)
      (fun _ => hStore.nodup_clustering_bookmarks) (fun _ => True)
      (fun bookmark => by simp only [hStore.mem_clustering_bookmarks_iff, and_true])
      direction.isDescending
    exact ⟨_, _, found, rfl, rfl, hFound⟩
  · refine ⟨_, _, Table.planWhole_of_mem hTable hIndex direction, rfl, fun hTuple => ?_,
      fun hTuple hPrimary => ?_⟩
    · obtain ⟨slot, columns, hSlot, hIndexes⟩ := exists_indexes hTable hStore hIndex hTuple
      apply exists_returnsOnce hTable hReachable hCursor hSlot hIndexes.nodup_bookmarks
      intro bookmark
      simp only [hIndexes.mem_bookmarks_iff, and_true]
    · obtain ⟨part, column, hColumns, hColumn, hType⟩ := (hTable.proper index hIndex).tuple hTuple
      obtain ⟨slot, hSlot, hSuffixes⟩ :=
        exists_indexesSuffixes hTable hStore hIndex hTuple hPrimary hColumns hColumn
      have hRepeats : index.repeatsRecords table = true := by
        rw [IndexDefinition.repeatsRecords, hTuple, Bool.true_or]
      obtain ⟨found, hFound⟩ := exists_returnsOnce hTable hReachable hCursor hSlot
        (fun hOnce => Bool.noConfusion (hRepeats.symm.trans hOnce))
        (fun row => ∃ element ∈ column.elements row, element ≠ .null)
        (fun bookmark => hSuffixes.mem_bookmarks_iff_ne_null hType) direction.isDescending
      exact ⟨part, column, found, hColumns, hColumn, hFound⟩
  · intro target plan slot hPlan hSlot entry hEntry other hOther hSame hApart
    by_contra hDistinct
    have hNodup := nodup_bookmarks_of_planWhole hTable hStore hPlan (by simpa using hDistinct) hSlot
    exact hApart (List.inj_on_of_nodup_map hNodup hEntry hOther hSame)

/-- A record with several entries in both indices, one with an empty list, and one with a null
alone. -/
theorem wholeIndex_returnsOnce_of_repeated :
    let table : Table :=
      { name := "notes"
        columns := [⟨"id", .int32, false, false, 0⟩, ⟨"tags", .text, true, true, 1⟩]
        indices := [⟨"pkNotes", "notes", [⟨"id", .ascending⟩], true, .standard, 1⟩,
          ⟨"byTag", "notes", [⟨"tags", .ascending⟩], false, .standard, 1⟩,
          ⟨"inTags", "notes", [⟨"tags", .ascending⟩], false, .tuple, 1⟩] }
    let operations : List StoreOperation :=
      [.insert [.int32 7, .list [.text "ba", .text "a", .text "a", .null]],
        .insert [.int32 8, .list []], .insert [.int32 9, .list [.null]]]
    ∃ first, create table = .ok first ∧
      let store := operations.foldl apply first
      let scanOf : String → Scan := fun name =>
        Filter.scan ⟨.wholeIndex (some name) true, true⟩ (store.cursor .byValues)
      (∃ found, (scanOf "byTag").ReturnsOnce store (fun _ => True) found ∧
        found = [⟨[2, 128, 0, 0, 7]⟩, ⟨[2, 128, 0, 0, 9]⟩, ⟨[2, 128, 0, 0, 8]⟩]) ∧
      ∃ found, (scanOf "inTags").ReturnsOnce store (fun row => ∃ element ∈
          Column.elements ⟨"tags", .text, true, true, 1⟩ row, element ≠ .null) found ∧
        found = [⟨[2, 128, 0, 0, 7]⟩] := by
  intro table operations
  have hDeclare : Table.declare "notes" [.column "id" .int32, .multiValued "tags" .text,
      .nullable ["tags"], .primaryKey ["id"], .index "byTag" ["tags"],
      .tupleIndex "inTags" "tags" 1] = .ok table := rfl
  obtain ⟨first, hCreate, hByTag, hInTags⟩ : ∃ first, create table = .ok first ∧
      (Filter.scan ⟨.wholeIndex (some "byTag") true, true⟩
        ((operations.foldl apply first).cursor .byValues)).toEnd.items =
          [⟨[2, 128, 0, 0, 7]⟩, ⟨[2, 128, 0, 0, 9]⟩, ⟨[2, 128, 0, 0, 8]⟩].map .ok ∧
      (Filter.scan ⟨.wholeIndex (some "inTags") true, true⟩
        ((operations.foldl apply first).cursor .byValues)).toEnd.items =
          [⟨[2, 128, 0, 0, 7]⟩].map .ok :=
    ⟨_, rfl, by decide +kernel, by decide +kernel⟩
  have hReachable := (Reachable.created hCreate).foldl operations
  have hOk : Function.Injective (Except.ok : Bookmark → Except IndexError Bookmark) :=
    fun _ _ => Except.ok.inj
  obtain ⟨-, hIndices, -⟩ := wholeIndex_returnsOnce hDeclare hReachable
    (cursor_on _ .byValues) .descending []
  obtain ⟨plan, filter, hPlan, hBind, hWhole, -⟩ := hIndices _ (.tail _ (.head _))
  obtain ⟨suffixPlan, suffixFilter, hSuffixPlan, hSuffixBind, -, hSuffixes⟩ :=
    hIndices _ (.tail _ (.tail _ (.head _)))
  cases hPlan
  cases hBind
  cases hSuffixPlan
  cases hSuffixBind
  obtain ⟨found, hFound⟩ := hWhole rfl
  obtain ⟨part, column, tagged, hColumns, hColumn, hTagged⟩ := hSuffixes rfl rfl
  cases hColumns
  cases hColumn
  refine ⟨first, hCreate, ⟨found, hFound, ?_⟩, tagged, hTagged, ?_⟩
  · exact List.map_injective_iff.mpr hOk (hFound.items.symm.trans hByTag)
  · exact List.map_injective_iff.mpr hOk (hTagged.items.symm.trans hInTags)

end Store

end IndexedTable

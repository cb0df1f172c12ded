import IndexedTable.Proofs.ScanResume
import IndexedTable.Proofs.SuffixKeys

/-! Containment. A compiled containment scans an index over the suffixes of its field for those that
begin with the needle, and returns each record once, however many of its suffixes do. -/

namespace IndexedTable

namespace Table

variable {table : Table} {field : String} {operand : Expr} {selection : Selection}
  {condition : Condition}

theorem selectTuple_eq_ok (hSelect : table.selectTuple condition = .ok selection) :
    ∃ index ∈ table.indices, index.isTuple = true ∧ index.position? condition.field = some 0 ∧
      selection.plan = ⟨index.width, true, .leading index.name [condition.source]⟩ := by
  unfold selectTuple at hSelect
  split at hSelect
  · cases hSelect
  · split at hSelect
    · cases hSelect
    · split at hSelect
      · cases hSelect
      · rename_i index hFind
        cases hSelect
        have hChosen := List.find?_some hFind
        rw [Bool.and_eq_true, decide_eq_true_iff] at hChosen
        exact ⟨index, List.mem_of_find?_eq_some hFind, hChosen.1, hChosen.2, rfl⟩

/-- A compiled containment scans an index over the suffixes of its field. -/
theorem compile_contains_eq_ok
    (hCompile : table.compile (.contains (.field field) operand) .ascending = .ok selection) :
    ∃ source index, ValueSource.ofExpr operand = .ok source ∧ index ∈ table.indices ∧
      index.isTuple = true ∧ index.position? field = some 0 ∧
      selection.plan = ⟨index.width, true, .leading index.name [source]⟩ := by
  simp only [compile, Expr.conditions, Expr.asField?, Except.bind_eq_ok_iff,
    Except.map_eq_ok_iff] at hCompile
  obtain ⟨_, ⟨source, hSource, rfl⟩, hSelect⟩ := hCompile
  obtain ⟨index, hIndex, hTuple, hPlace, hPlan⟩ := selectTuple_eq_ok
    (show table.selectTuple ⟨field, .containment, source⟩ = .ok selection from hSelect)
  exact ⟨source, index, hSource, hIndex, hTuple, hPlace, hPlan⟩

end Table

namespace Plan

variable {width : Nat} {name : String} {source : ValueSource} {arguments : List Value}
  {needle : Value}

theorem bind_leading (hWidth : 0 < width) (hNeedle : source.resolve arguments = .ok needle)
    (distinct : Bool) :
    bind ⟨width, distinct, .leading name [source]⟩ arguments =
      .ok ⟨.leading name [needle], distinct⟩ := by
  have hCheck : ScanStrategy.checkWidth name width [needle] = .ok () :=
    checkWidth_eq_ok_iff.mpr hWidth
  simp only [Plan.bind, bindShape, ValueSource.resolveAll, ScanStrategy.checkedLeading,
    Except.bind_eq_ok_iff, Except.pure_eq_ok_iff]
  exact ⟨.leading name [needle], ⟨[needle], ⟨needle, hNeedle, [], rfl, rfl⟩, (), hCheck, rfl⟩, rfl⟩

end Plan

namespace ValueRange

variable {column : KeyColumn} {name : String} {needle value : Value}

/-- The interval of a needle holds the keys of the values that begin with it. -/
theorem interval_of_leading (hPartial : column.type.supportsPartialMatch = true)
    (hNeedle : needle.dataType? = some column.type) :
    ∃ interval,
      (ScanStrategy.leading name [needle]).valueRange.intervalFor [column] = .ok interval ∧
      ∀ value, value.dataType? = some column.type →
        (interval.contains ⟨KeyLayout.bytes [column] [value]⟩ = true ↔
          needle.Related (· <+: ·) value) := by
  have hCoerce := Value.coerce?_of_fits (.inr hNeedle)
  have hNotNull : needle ≠ .null := by
    rintro rfl
    cases hNeedle
  obtain ⟨content, hContent⟩ := Value.exists_content hPartial hCoerce hNotNull
  have hKey (limit : KeyLimit) (hLimit : limit.isPartial = true) :
      KeyLayout.makeKey [column] [needle] limit =
        .ok ⟨column.segment true needle ++ KeyLayout.limitMark limit⟩ :=
    (@KeyLayout.makeKey_open_eq_ok_iff [column] [] needle limit _ hLimit).mpr
      ⟨column, [], needle, rfl, hPartial, KeyLayout.coerce?_nil, hCoerce, rfl⟩
  have hStart := hKey .partialStart rfl
  rw [show KeyLayout.limitMark .partialStart = [] from rfl, List.append_nil] at hStart
  refine ⟨⟨some ⟨column.segment true needle⟩,
    some ⟨column.segment true needle ++ KeyLayout.rangeEndMark⟩⟩, ?_, fun value hValue => ?_⟩
  · simp only [intervalFor, ScanStrategy.valueRange, Option.mapM_some, hStart,
      hKey .partialEnd rfl]
    rfl
  · have hBetween := KeyColumn.segment_between_iff hContent (.inr hValue) hPartial (.inl rfl)
    rw [Value.related_prefix_iff hContent (hNeedle.trans hValue.symm), ← hBetween,
      KeyInterval.contains, Option.all_some, Option.all_some, Bool.and_eq_true, decide_eq_true_iff,
      decide_eq_true_iff, Key.le_iff_not_lt, Key.le_iff_not_gt]
    rfl

end ValueRange

namespace Slot

variable {slot : Slot} {records : List StoredRecord} {index : IndexDefinition} {column : Column}
  {interval : KeyInterval} {needle : Value} {reversed : Bool} {bookmark : Bookmark}

/-- The records met in the interval of a needle are those with an element in which it occurs. -/
theorem IndexesSuffixes.mem_bookmarks_iff (hSuffixes : slot.IndexesSuffixes records index column)
    (hContains : ∀ value, value.dataType? = some column.type →
      (interval.contains ⟨slot.index.layout.bytes [value]⟩ = true ↔
        needle.Related (· <+: ·) value)) :
    bookmark ∈ (ValueRange.hits slot.index interval reversed).map (·.bookmark) ↔
      ∃ record ∈ records, record.bookmark = bookmark ∧ ∃ element ∈ column.elements record.row,
        needle.Related (Occurs (max 1 index.minLength)) element := by
  simp only [List.mem_map, ValueRange.mem_hits, hSuffixes.mem_entries, Value.related_occurs_iff]
  constructor
  · rintro ⟨_, ⟨⟨record, hRecord, element, hElement, suffix, hSuffix, rfl⟩, hInside⟩, hBookmark⟩
    have hType := Value.dataType?_of_mem_suffixes_of_fits
      (hSuffixes.fits record hRecord element hElement) hSuffix
    exact ⟨record, hRecord, hBookmark, element, hElement, suffix, hSuffix,
      (hContains suffix hType).mp hInside⟩
  · rintro ⟨record, hRecord, hBookmark, element, hElement, suffix, hSuffix, hPrefix⟩
    have hType := Value.dataType?_of_mem_suffixes_of_fits
      (hSuffixes.fits record hRecord element hElement) hSuffix
    exact ⟨⟨⟨slot.index.layout.bytes [suffix]⟩, record.bookmark⟩,
      ⟨⟨record, hRecord, element, hElement, suffix, hSuffix, rfl⟩,
        (hContains suffix hType).mpr hPrefix⟩, hBookmark⟩

end Slot

namespace Store

variable {table : Table} {store : Store} {cursor : Cursor} {field name : String} {operand : Expr}
  {selection : Selection} {index : IndexDefinition} {column : Column} {source : ValueSource}
  {arguments : List Value} {needle : Value} {steps : List Declaration}

/-- A containment returns each record once in which the needle occurs in an element of the column,
far enough from its end. -/
theorem scan_containment (hDeclare : Table.declare name steps = .ok table)
    (hReachable : Reachable table store) (hCursor : cursor.On store)
    (hCompile : table.compile (.contains (.field field) operand) .ascending = .ok selection)
    (hIndex : index ∈ table.indices) (hChosen : selection.plan.shape.index = some index.name)
    (hPrimary : index.primary = false) (hColumn : table.column? field = some column)
    (hSource : ValueSource.ofExpr operand = .ok source)
    (hNeedle : source.resolve arguments = .ok needle)
    (hType : needle.dataType? = some column.type) :
    ∃ filter, selection.plan.bind arguments = .ok filter ∧ ∃ found : List Bookmark,
      (filter.scan cursor).toEnd.items = found.map .ok ∧ (filter.scan cursor).toEnd.ended = true ∧
      found.Nodup ∧
      (∀ bookmark, bookmark ∈ found ↔ ∃ record ∈ store.records.toList,
        record.bookmark = bookmark ∧ ∃ element ∈ column.elements record.row,
          needle.Related (Occurs (max 1 index.minLength)) element) ∧
      (needle.length = 0 ∨ index.minLength ≤ needle.length →
        ∀ bookmark, bookmark ∈ found ↔ ∃ record ∈ store.records.toList,
          record.bookmark = bookmark ∧ ∃ element ∈ column.elements record.row,
            needle.Related (· <:+: ·) element) := by
  have hTable := Table.wellFormed_of_declare hDeclare
  have hInvariant := hReachable.invariant
  obtain ⟨own, chosen, hOwn, hMem, hTuple, hPlace, hPlan⟩ := Table.compile_contains_eq_ok hCompile
  obtain rfl : own = source := Except.ok.inj (hOwn.symm.trans hSource)
  -- Two declared indices of one name are the same, so that the one chosen is the one given.
  obtain rfl : chosen = index := by
    rw [hPlan] at hChosen
    exact List.inj_on_of_nodup_map hTable.indexNames hMem hIndex (Option.some.inj hChosen)
  obtain ⟨part, keyed, hColumns, hKeyed, hPartial⟩ := (hTable.proper chosen hMem).tuple hTuple
  obtain rfl : part.column = field := by
    simpa [IndexDefinition.position?, hColumns, List.findIdx?_cons] using hPlace
  obtain rfl : keyed = column := Option.some.inj (hKeyed.symm.trans hColumn)
  have hWidth : 0 < chosen.width := by simp [IndexDefinition.width, hColumns]
  obtain ⟨slot, hSlot, hSuffixes⟩ :=
    exists_indexesSuffixes hTable hInvariant hMem hTuple hPrimary hColumns hColumn
  obtain ⟨direction, hLayout⟩ := hSuffixes.layout
  obtain ⟨interval, hInterval, hContains⟩ :=
    @ValueRange.interval_of_leading ⟨keyed.type, direction⟩ chosen.name needle hPartial hType
  rw [← hLayout] at hInterval hContains
  have hFound (bookmark : Bookmark) := @Slot.IndexesSuffixes.mem_bookmarks_iff slot _ chosen keyed
    interval needle false bookmark hSuffixes hContains
  let filter : Filter := ⟨.leading chosen.name [needle], true⟩
  have hVisits : (filter.scan cursor).Visits (ValueRange.hits slot.index interval false) :=
    hReachable.visits_scan hTable hCursor hSlot hInterval
  refine ⟨filter, hPlan ▸ Plan.bind_leading hWidth hNeedle true,
    filter.returned (ValueRange.hits slot.index interval false), hVisits.items, hVisits.ended,
    List.nodup_eraseDups _, ?_, ?_⟩
  · intro bookmark
    rw [← hFound]
    exact List.mem_eraseDups
  · intro hLong bookmark
    simp only [← Value.related_occurs_iff_infix hLong]
    rw [← hFound]
    exact List.mem_eraseDups

/-- A needle that occurs twice in one element, in an index over suffixes that runs backwards. -/
theorem scan_containment_of_descending :
    let table : Table :=
      { name := "notes"
        columns := [⟨"id", .int32, false, false, 0⟩, ⟨"tags", .text, false, true, 1⟩]
        indices := [⟨"pkNotes", "notes", [⟨"id", .ascending⟩], true, .standard, 1⟩,
          ⟨"inTags", "notes", [⟨"tags", .descending⟩], false, .tuple, 2⟩] }
    let plan : Plan := ⟨1, true, .leading "inTags" [.argument 0]⟩
    let operations : List StoreOperation :=
      [.insert [.int32 7, .list [.text "añaña", .text "b"]], .insert [.int32 8, .list []],
        .insert [.int32 9, .list [.text "na", .text "ñandú"]]]
    ∃ first, create table = .ok first ∧
      table.compile (.contains (.field "tags") (.argument 0)) .ascending = .ok ⟨plan, []⟩ ∧
      let store := operations.foldl apply first
      ∃ filter found, plan.bind [.text "ña"] = .ok filter ∧
        (filter.scan (store.cursor .byValues)).toEnd.items = found.map .ok ∧
        found = [⟨[2, 128, 0, 0, 7]⟩, ⟨[2, 128, 0, 0, 9]⟩] ∧
        ∀ bookmark, bookmark ∈ found ↔ ∃ record ∈ store.records.toList,
          record.bookmark = bookmark ∧
          ∃ element ∈ Column.elements ⟨"tags", .text, false, true, 1⟩ record.row,
            Value.Related (· <:+: ·) (.text "ña") element := by
  intro table plan operations
  have hDeclare : Table.declare "notes" [.column "id" .int32, .multiValued "tags" .text,
      .primaryKey ["id"], .definition ⟨"inTags", "", [⟨"tags", .descending⟩], false, .tuple, 2⟩] =
      .ok table := rfl
  have hCompile : table.compile (.contains (.field "tags") (.argument 0)) .ascending =
      .ok ⟨plan, []⟩ := rfl
  obtain ⟨first, hCreate, hRead⟩ : ∃ first, create table = .ok first ∧
      (Filter.scan ⟨.leading "inTags" [.text "ña"], true⟩
        ((operations.foldl apply first).cursor .byValues)).toEnd.items =
          [⟨[2, 128, 0, 0, 7]⟩, ⟨[2, 128, 0, 0, 9]⟩].map .ok :=
    ⟨_, rfl, by decide +kernel⟩
  have hReachable := (Reachable.created hCreate).foldl operations
  obtain ⟨filter, hBind, found, hItems, -, -, -, hMem⟩ :=
    @scan_containment table _ _ "tags" "notes" _ _ _ _ _ [.text "ña"] _ _ hDeclare hReachable
      (cursor_on _ .byValues) hCompile (List.mem_cons_of_mem _ List.mem_cons_self) rfl rfl rfl rfl
      rfl rfl
  have hFilter : plan.bind [.text "ña"] = .ok ⟨.leading "inTags" [.text "ña"], true⟩ := rfl
  obtain rfl := Except.ok.inj (hFilter.symm.trans hBind)
  refine ⟨first, hCreate, hCompile, _, found, hBind, hItems, ?_, hMem (.inr (by decide))⟩
  exact List.map_injective_iff.mpr (fun _ _ => Except.ok.inj) (hItems.symm.trans hRead)

end Store

end IndexedTable

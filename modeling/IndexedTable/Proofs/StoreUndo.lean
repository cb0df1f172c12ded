import IndexedTable.Proofs.ConformedRows

/-! How the changes of a store are undone. The entries and the counters follow the records, so that
a store is told by its records and its next number: whatever brings these back brings back
everything. -/

namespace IndexedTable

/-- An index with the entries of another of the same definition is that index. -/
theorem Slot.eq_of_clear_eq {slot other : Slot} (hShape : slot.clear = other.clear)
    (hCounted : slot.index.Counted) (hOther : other.index.Counted)
    (hEntries : ∀ entry, entry ∈ slot.index.entries.toList ↔ entry ∈ other.index.entries.toList) :
    slot = other := by
  have hSet : slot.index.entries = other.index.entries := OrderedSet.eq_of_mem_iff hEntries
  have hCounters : slot.index.counters = other.index.counters := by
    have hTotal : slot.index.counters.total = other.index.counters.total := by
      rw [hCounted.total, hOther.total, OrderedIndex.size, OrderedIndex.size, hSet]
    have hCollapsed := hCounted.collapsed.trans hOther.collapsed.symm
    exact congrArg₂ EntryCounters.mk hTotal hCollapsed
  rcases slot with ⟨definition, positions, multiValued, index⟩
  rcases other with ⟨_, _, _, other⟩
  cases index
  cases other
  simp only [clear, OrderedIndex.clear, Slot.mk.injEq, OrderedIndex.mk.injEq] at hShape ⊢
  tauto

/-- Indices of the same definitions that follow the same records are the same. -/
theorem Slot.eq_of_follows {slots others : List Slot} {records : List StoredRecord}
    (hShapes : slots.map clear = others.map clear)
    (hSlots : ∀ slot ∈ slots, slot.Follows records)
    (hOthers : ∀ slot ∈ others, slot.Follows records) : slots = others := by
  induction slots generalizing others with
  | nil => exact (List.map_eq_nil_iff.mp hShapes.symm).symm
  | cons slot slots ih =>
      obtain ⟨other, rest, rfl, hShape, hRest⟩ := List.map_eq_cons_iff.mp hShapes.symm
      obtain ⟨hSlot, hSlots⟩ := List.forall_mem_cons.mp hSlots
      obtain ⟨hOther, hOthers⟩ := List.forall_mem_cons.mp hOthers
      have hSame : slot = other := by
        refine eq_of_clear_eq hShape.symm hSlot.counted hOther.counted fun entry => ?_
        rw [hSlot.mem_iff, hOther.mem_iff]
        simp only [keysFor_congr hShape]
      rw [hSame, ih hRest.symm hSlots hOthers]

namespace Store

variable {table : Table} {store after : Store} {bookmark moved : Bookmark} {given row old : Row}

/-- Taking away what was added. -/
theorem filter_insert_record {records : OrderedSet StoredRecord StoredRecord.order}
    (hFree : ∀ record ∈ records.toList, record.bookmark ≠ bookmark) :
    ((records.insert ⟨bookmark, row⟩).filter fun record => decide (record.bookmark ≠ bookmark)) =
      records := by
  have hNew : ⟨bookmark, row⟩ ∈ (records.insert ⟨bookmark, row⟩).toList :=
    (mem_insert_record hFree).mpr (.inl rfl)
  refine OrderedSet.eq_of_mem_iff fun record => ?_
  rw [mem_filter_record hNew, mem_insert_record hFree]
  constructor
  · rintro ⟨hSame | hRecord, hOther⟩
    · exact absurd hSame hOther
    · exact hRecord
  · intro hRecord
    exact ⟨.inr hRecord, fun hSame => hFree record hRecord (congrArg StoredRecord.bookmark hSame)⟩

/-- Adding again what was taken away. -/
theorem insert_filter_record {records : OrderedSet StoredRecord StoredRecord.order}
    (hRecord : ⟨bookmark, row⟩ ∈ records.toList) :
    (records.filter fun record => decide (record.bookmark ≠ bookmark)).insert ⟨bookmark, row⟩ =
      records := by
  have hFree : ∀ record ∈
      (records.filter fun record => decide (record.bookmark ≠ bookmark)).toList,
      record.bookmark ≠ bookmark := fun record hKept => by
    simpa using (List.mem_filter.mp hKept).2
  refine OrderedSet.eq_of_mem_iff fun record => ?_
  rw [mem_insert_record hFree, mem_filter_record hRecord]
  constructor
  · rintro (rfl | ⟨hKept, -⟩)
    · exact hRecord
    · exact hKept
  · intro hKept
    by_cases hSame : record = ⟨bookmark, row⟩
    · exact .inl hSame
    · exact .inr ⟨hKept, hSame⟩

/-- The records and the next number determine a store of a table. -/
theorem Invariant.eq_of_records_eq (hStore : Invariant table store) (hAfter : Invariant table after)
    (hRecords : after.records = store.records) (hNext : after.nextSequence = store.nextSequence) :
    after = store := by
  have hShape : after.clear = store.clear := Except.ok.inj (hAfter.shape.symm.trans hStore.shape)
  obtain ⟨hTable, hClustering, hSecondary⟩ := eq_of_clear_eq hShape
  have hClusteringSame : after.clustering = store.clustering :=
    Slot.eq_of_clear_eq hClustering hAfter.counted hStore.counted fun entry => by
      rw [hAfter.clustered, hStore.clustered, hRecords]
  have hSecondarySame : after.secondary = store.secondary :=
    Slot.eq_of_follows hSecondary hAfter.secondary (hRecords ▸ hStore.secondary)
  cases after
  cases store
  simp only [Store.mk.injEq]
  exact ⟨hTable, hClusteringSame, hSecondarySame, hRecords, hNext⟩

/-- Deleting a record that was just inserted. -/
theorem Invariant.delete_insert (hStore : Invariant table store)
    (hInsert : store.insert given = (.ok bookmark, after)) :
    ∃ row, table.conformRow given = .ok row ∧
      after.delete bookmark = (.ok row, { store with nextSequence := after.nextSequence }) := by
  obtain ⟨row, hInserted⟩ := hStore.inserted_of_insert hInsert
  have hFree := contains_eq_false_iff.mp hInserted.free
  have hAfter : Invariant table after := by
    have hNext := hStore.apply (.insert given)
    rwa [Store.apply, hInsert] at hNext
  have hGet : after.get? bookmark = some row := by
    rw [get?_eq_some_iff, hInserted.records, mem_insert_record hFree]
    exact .inl rfl
  obtain ⟨last, hDelete, hLast⟩ := hAfter.exists_delete hGet
  have hDeleted := deleted_of_delete hDelete
  refine ⟨row, hInserted.conformed, hDelete.trans (congrArg (Prod.mk _) ?_)⟩
  refine hStore.with_nextSequence.eq_of_records_eq hLast ?_ hDeleted.nextSequence
  rw [hDeleted.records, hInserted.records, filter_insert_record hFree]

/-- A replacement that gives one record the values and the bookmark that another store has for it,
where the stores agree on the other records, leads to that store. -/
theorem Invariant.replace_eq (hStore : Invariant table store) (hAfter : Invariant table after)
    (hGet : store.get? bookmark = some row) (hOld : after.get? moved = some old)
    (hOthers : (after.records.filter fun record => decide (record.bookmark ≠ moved)) =
      store.records.filter fun record => decide (record.bookmark ≠ bookmark))
    (hNext : after.nextSequence = store.nextSequence)
    (hOwn : table.primaryKey?.isSome = false → bookmark = moved) :
    after.replace moved row = (.ok bookmark, store) := by
  have hRecord := get?_eq_some_iff.mp hGet
  have hShape : after.clear = store.clear := Except.ok.inj (hAfter.shape.symm.trans hStore.shape)
  have hTable := table_of_create hAfter.shape
  obtain ⟨given, hConform⟩ := hStore.conformed _ hRecord
  have hAgain := Table.conformRow_idem hConform
  obtain ⟨keys, hKeys⟩ := hStore.exists_secondaryKeys hGet
  have hKey : after.keyAgain moved row = .ok ⟨bookmark.bytes⟩ := by
    cases hPrimary : table.primaryKey?.isSome with
    | true =>
        rw [keyAgain_of_some (hTable ▸ hPrimary), clusteringKey_congr hShape
          (table_of_create hStore.shape ▸ hPrimary)]
        exact hStore.primary hPrimary ⟨bookmark, row⟩ hRecord
    | false => rw [keyAgain_of_none (hTable ▸ hPrimary), hOwn hPrimary]
  have hFree (hOther : bookmark ≠ moved) : after.contains bookmark = false := by
    refine contains_eq_false_iff.mpr fun record hTaken hSame => ?_
    have hKept : record ∈
        (after.records.filter fun record => decide (record.bookmark ≠ moved)).toList :=
      List.mem_filter.mpr ⟨hTaken, decide_eq_true (hSame ▸ hOther)⟩
    rw [hOthers] at hKept
    exact of_decide_eq_true (List.mem_filter.mp hKept).2 hSame
  obtain ⟨last, hReplace, hLast⟩ :=
    hAfter.exists_replace hOld hAgain hKey hFree (secondaryKeys_congr hShape _ ▸ hKeys)
  obtain ⟨values, hReplaced⟩ := hAfter.replaced_of_replace hReplace
  obtain rfl := Except.ok.inj (hReplaced.conformed.symm.trans hAgain)
  refine hReplace.trans (congrArg (Prod.mk _) ?_)
  refine hStore.eq_of_records_eq hLast ?_ (hReplaced.nextSequence.trans hNext)
  rw [hReplaced.records, hOthers, insert_filter_record hRecord]

/-- A record is given its old values back. -/
theorem Invariant.replace_replace (hStore : Invariant table store)
    (hGet : store.get? bookmark = some row)
    (hReplace : store.replace bookmark given = (.ok moved, after)) :
    after.replace moved row = (.ok bookmark, store) := by
  obtain ⟨values, hReplaced⟩ := hStore.replaced_of_replace hReplace
  have hFree : ∀ record ∈ (store.records.filter fun record =>
      decide (record.bookmark ≠ bookmark)).toList, record.bookmark ≠ moved := by
    intro record hRecord hSame
    obtain ⟨hStored, hOther⟩ := List.mem_filter.mp hRecord
    have hMoved : moved ≠ bookmark := hSame ▸ of_decide_eq_true hOther
    exact contains_eq_false_iff.mp (hReplaced.free hMoved) record hStored hSame
  have hAfter : Invariant table after := by
    have hNext := hStore.apply (.replace bookmark given)
    rwa [Store.apply, hReplace] at hNext
  have hOld : after.get? moved = some values := by
    rw [get?_eq_some_iff, hReplaced.records, mem_insert_record hFree]
    exact .inl rfl
  refine hStore.replace_eq hAfter hGet hOld ?_ hReplaced.nextSequence fun hNone =>
    (hReplaced.own (table_of_create hStore.shape ▸ hNone)).symm
  rw [hReplaced.records, filter_insert_record hFree]

/-- Changes of a store can be undone. Deleting what was inserted gives its values back and leaves
the records, the entries of every index and their counters as they were; only the next number stays
ahead. Replacing a record by its own values changes nothing. Replacing a replaced record, under the
bookmark it got, by the values it had restores the store, also where its primary key had changed. -/
theorem changes_undone_of_reachable (hReachable : Reachable table store) :
    (∀ given bookmark after, store.insert given = (.ok bookmark, after) →
      ∃ row, table.conformRow given = .ok row ∧
        after.delete bookmark = (.ok row, { store with nextSequence := after.nextSequence })) ∧
    ∀ bookmark row, store.get? bookmark = some row →
      store.replace bookmark row = (.ok bookmark, store) ∧
      ∀ given moved after, store.replace bookmark given = (.ok moved, after) →
        after.replace moved row = (.ok bookmark, store) := by
  have hStore := hReachable.invariant
  refine ⟨fun given bookmark after hInsert => hStore.delete_insert hInsert, ?_⟩
  intro bookmark row hGet
  refine ⟨hStore.replace_eq hStore hGet hGet rfl rfl fun _ => rfl, ?_⟩
  exact fun given moved after hReplace => hStore.replace_replace hGet hReplace

/-- An insertion and a replacement that moves the record, over an index of list elements and one of
suffixes in which the two records share keys. -/
theorem changes_undone_of_reachable_moved :
    let table : Table :=
      { name := "notes"
        columns := [⟨"id", .int32, false, false, 0⟩, ⟨"tags", .bytes, true, true, 1⟩,
          ⟨"body", .bytes, true, false, 2⟩]
        indices := [⟨"pkNotes", "notes", [⟨"id", .ascending⟩], true, .standard, 1⟩,
          ⟨"byTag", "notes", [⟨"tags", .descending⟩], false, .standard, 1⟩,
          ⟨"byBody", "notes", [⟨"body", .ascending⟩], false, .tuple, 2⟩] }
    let row : Row := [.int32 7, .list [.bytes [1], .bytes [2], .bytes [1]], .bytes [5, 6, 7]]
    ∃ first, create table = .ok first ∧
      let store := first.apply (.insert row)
      ∃ inserted moved, store.insert [.int64 8, .null, .bytes [6, 7]] =
          (.ok ⟨[2, 128, 0, 0, 8]⟩, inserted) ∧
        inserted.delete ⟨[2, 128, 0, 0, 8]⟩ = (.ok [.int32 8, .list [], .bytes [6, 7]],
          { store with nextSequence := inserted.nextSequence }) ∧
        store.replace ⟨[2, 128, 0, 0, 7]⟩ [.int32 9, .list [.bytes [2]], .null] =
          (.ok ⟨[2, 128, 0, 0, 9]⟩, moved) ∧
        moved.replace ⟨[2, 128, 0, 0, 9]⟩ row = (.ok ⟨[2, 128, 0, 0, 7]⟩, store) := by
  intro table row
  obtain ⟨first, hCreate, hInsert, hReplace, hGet⟩ : ∃ first, create table = .ok first ∧
      ((first.apply (.insert row)).insert [.int64 8, .null, .bytes [6, 7]]).1 =
        .ok ⟨[2, 128, 0, 0, 8]⟩ ∧
      ((first.apply (.insert row)).replace ⟨[2, 128, 0, 0, 7]⟩
        [.int32 9, .list [.bytes [2]], .null]).1 = .ok ⟨[2, 128, 0, 0, 9]⟩ ∧
      (first.apply (.insert row)).get? ⟨[2, 128, 0, 0, 7]⟩ = some row :=
    ⟨_, rfl, by decide +kernel, by decide +kernel, rfl⟩
  obtain ⟨hInserted, hReplaced⟩ :=
    changes_undone_of_reachable ((Reachable.created hCreate).changed (.insert row))
  obtain ⟨stored, hConform, hDelete⟩ := hInserted _ _ _ (Prod.ext hInsert rfl)
  obtain rfl : [.int32 8, .list [], .bytes [6, 7]] = stored := Except.ok.inj hConform
  obtain ⟨-, hBack⟩ := hReplaced _ _ hGet
  exact ⟨first, hCreate, _, _, Prod.ext hInsert rfl, hDelete, Prod.ext hReplace rfl,
    hBack _ _ _ (Prod.ext hReplace rfl)⟩

end Store

end IndexedTable

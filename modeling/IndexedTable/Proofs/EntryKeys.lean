import IndexedTable.Proofs.KeyLimits
import IndexedTable.Proofs.RowKeys
import IndexedTable.Proofs.StoreChanges

/-! The keys of stored entries. Whatever the index, each is the key of some values: in a secondary
index those of the row, in the clustering index those under which the record was given its
bookmark, which a later change of a record without primary key does not touch. So every stored key
lies below the mark that ends a range. -/

namespace IndexedTable

theorem KeyLayout.compare_makeKey_rangeEndMark {layout : KeyLayout} {values : List Value}
    {key : Key} (hKey : layout.makeKey values .exact = .ok key) :
    compare key.bytes rangeEndMark = .lt := by
  obtain ⟨us, hus, rfl⟩ := (makeKey_eq_ok_iff rfl).mp hKey
  have hBytes := compare_rangeEndMark (continues_bytes (fits_of_coerce? hus).1)
  simpa [limitMark, KeyLimit.isEnd] using hBytes

namespace Store

variable {table : Table} {store : Store} {row : Row} {record : StoredRecord} {key : Key}

theorem exists_makeKey_of_clusteringKey (hKey : store.clusteringKey row = .ok key) :
    ∃ values, store.clustering.index.layout.makeKey values .exact = .ok key := by
  unfold clusteringKey at hKey
  split at hKey
  · obtain ⟨keys, hKeys, hFirst⟩ := Except.bind_eq_ok_iff.mp hKey
    cases hList : keys.toList with
    | nil => simp [hList, Except.throw_eq_ok_iff] at hFirst
    | cons first rest =>
        simp only [hList, Except.pure_eq_ok_iff] at hFirst
        have hMem : key ∈ keys.toList := by simp [hList, hFirst]
        obtain ⟨values, -, hMake⟩ := (Slot.mem_keysFor hKeys).mp hMem
        exact ⟨values, hMake⟩
  · split at hKey
    · exact ⟨_, hKey⟩
    · cases hKey

/-- Only a key for the clustering index becomes a bookmark. -/
theorem Invariant.bookmark_of_mem_apply {operation : StoreOperation}
    (hStore : Invariant table store) (hRecord : record ∈ (store.apply operation).records.toList) :
    (∃ old ∈ store.records.toList, old.bookmark = record.bookmark) ∨
      ∃ row, store.clusteringKey row = .ok ⟨record.bookmark.bytes⟩ := by
  cases operation with
  | insert given =>
      rw [Store.apply] at hRecord
      cases hResult : (store.insert given).1 with
      | error e =>
          rw [hStore.intactAfter_insert given e hResult] at hRecord
          exact .inl ⟨record, hRecord, rfl⟩
      | ok bookmark =>
          obtain ⟨row, hInserted⟩ := hStore.inserted_of_insert (Prod.ext hResult rfl)
          rw [hInserted.records] at hRecord
          rcases OrderedSet.mem_insert.mp hRecord with rfl | ⟨hOld, -⟩
          · exact .inr ⟨row, hInserted.key⟩
          · exact .inl ⟨record, hOld, rfl⟩
  | replace bookmark given =>
      rw [Store.apply] at hRecord
      cases hResult : (store.replace bookmark given).1 with
      | error e =>
          rw [hStore.intactAfter_replace bookmark given e hResult] at hRecord
          exact .inl ⟨record, hRecord, rfl⟩
      | ok moved =>
          obtain ⟨row, hReplaced⟩ := hStore.replaced_of_replace (Prod.ext hResult rfl)
          rw [hReplaced.records] at hRecord
          rcases OrderedSet.mem_insert.mp hRecord with rfl | ⟨hKept, -⟩
          · cases hPrimary : store.table.primaryKey?.isSome with
            | true => exact .inr ⟨row, (keyAgain_of_some hPrimary).symm.trans hReplaced.key⟩
            | false =>
                obtain ⟨old, hGet⟩ := hReplaced.stored
                refine .inl ⟨⟨bookmark, old⟩, get?_eq_some_iff.mp hGet, ?_⟩
                exact (hReplaced.own hPrimary).symm
          · exact .inl ⟨record, List.mem_of_mem_filter hKept, rfl⟩
  | delete bookmark =>
      rw [Store.apply] at hRecord
      cases hResult : (store.delete bookmark).1 with
      | error e =>
          rw [store.intactAfter_delete bookmark e hResult] at hRecord
          exact .inl ⟨record, hRecord, rfl⟩
      | ok row =>
          rw [(deleted_of_delete (Prod.ext hResult rfl)).records] at hRecord
          exact .inl ⟨record, List.mem_of_mem_filter hRecord, rfl⟩
  | clear => cases hRecord

/-- Every bookmark is an encoded key. -/
theorem Reachable.exists_makeKey_of_record (hStore : Reachable table store)
    (hRecord : record ∈ store.records.toList) :
    ∃ values, store.clustering.index.layout.makeKey values .exact =
      .ok ⟨record.bookmark.bytes⟩ := by
  induction hStore generalizing record with
  | created hCreated =>
      rw [(create_eq_ok hCreated).2.1] at hRecord
      cases hRecord
  | @changed store hStore operation ih =>
      have hShape : (store.apply operation).clear = store.clear :=
        Except.ok.inj ((hStore.changed operation).invariant.shape.symm.trans hStore.invariant.shape)
      have hLayout : (store.apply operation).clustering.index.layout =
          store.clustering.index.layout :=
        congrArg (fun store => store.clustering.index.layout) hShape
      rw [hLayout]
      rcases hStore.invariant.bookmark_of_mem_apply hRecord with ⟨old, hOld, hSame⟩ | ⟨row, hKey⟩
      · rw [← hSame]
        exact ih hOld
      · exact exists_makeKey_of_clusteringKey hKey

theorem Reachable.exists_makeKey (hStore : Reachable table store) {slot : Slot} {entry : Entry}
    (hSlot : slot ∈ store.clustering :: store.secondary)
    (hEntry : entry ∈ slot.index.entries.toList) :
    ∃ values, slot.index.layout.makeKey values .exact = .ok entry.key := by
  have hInvariant := hStore.invariant
  rcases List.mem_cons.mp hSlot with rfl | hSecondary
  · obtain ⟨record, hRecord, rfl⟩ := (hInvariant.clustered entry).mp hEntry
    exact hStore.exists_makeKey_of_record hRecord
  · obtain ⟨record, -, keys, hKeys, hKey, -⟩ :=
      ((hInvariant.secondary slot hSecondary).mem_iff entry).mp hEntry
    obtain ⟨values, -, hMake⟩ := (Slot.mem_keysFor hKeys).mp hKey
    exact ⟨values, hMake⟩

end Store

end IndexedTable

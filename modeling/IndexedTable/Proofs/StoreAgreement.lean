import IndexedTable.Proofs.StoreRuns

/-! Agreement of the indices of a store with its records, over whole runs. The keys to remove are
computed again from the stored row, so the invariant speaks of those keys and not of the ones that
were once inserted. -/

namespace IndexedTable

variable {records : OrderedSet StoredRecord StoredRecord.order} {slot : Slot} {row : Row}
  {bookmark : Bookmark} {keys : KeySet}

theorem mem_insert_record {record : StoredRecord}
    (hFree : ∀ other ∈ records.toList, other.bookmark ≠ bookmark) :
    record ∈ (records.insert ⟨bookmark, row⟩).toList ↔
      record = ⟨bookmark, row⟩ ∨ record ∈ records.toList := by
  rw [OrderedSet.mem_insert]
  constructor
  · rintro (rfl | ⟨hOld, -⟩)
    · exact .inl rfl
    · exact .inr hOld
  · rintro (rfl | hOld)
    · exact .inl rfl
    · refine .inr ⟨hOld, fun hSame => hFree record hOld ?_⟩
      have hBookmarks : bookmark = record.bookmark := Std.LawfulEqCmp.eq_of_compare hSame
      exact hBookmarks.symm

theorem mem_filter_record {record other : StoredRecord} (hRecord : record ∈ records.toList) :
    other ∈ (records.filter fun other => decide (other.bookmark ≠ record.bookmark)).toList ↔
      other ∈ records.toList ∧ other ≠ record := by
  simp only [OrderedSet.filter, List.mem_filter, decide_eq_true_eq]
  refine and_congr_right fun hOther => not_congr ⟨?_, ?_⟩
  · exact StoredRecord.eq_of_bookmark_eq hOther hRecord
  · rintro rfl
    rfl

namespace Slot

/-- The index holds the entries of the records, under the keys of their present rows, and no
others. -/
structure AgreesWith (slot : Slot) (records : List StoredRecord) : Prop where
  keyed : ∀ record ∈ records, ∃ keys, slot.keysFor record.row = .ok keys
  mem_iff : ∀ entry, entry ∈ slot.index.entries.toList ↔
    ∃ record ∈ records, ∃ keys, slot.keysFor record.row = .ok keys ∧
      entry.key ∈ keys.toList ∧ entry.bookmark = record.bookmark

/-- A secondary index that agrees with the records, counters included. -/
structure Follows (slot : Slot) (records : List StoredRecord) : Prop
    extends slot.AgreesWith records where
  counted : slot.index.Counted
  shared : slot.index.unique = false

theorem follows_nil (hEmpty : slot.clear = slot) (hShared : slot.index.unique = false) :
    slot.Follows [] := by
  rw [← hEmpty]
  exact ⟨⟨by simp, by simp [clear, OrderedIndex.clear, OrderedSet.empty]⟩,
    OrderedIndex.counted_clear, hShared⟩

theorem Follows.erase {record : StoredRecord} (hFollows : slot.Follows records.toList)
    (hRecord : record ∈ records.toList) (hKeys : slot.keysFor record.row = .ok keys) :
    (slot.eraseKeys record.bookmark keys.toList).Follows
      (records.filter fun other => decide (other.bookmark ≠ record.bookmark)).toList := by
  have hShape := @clear_eraseKeys record.bookmark slot keys.toList
  have hSame := keysFor_congr hShape
  refine ⟨⟨?_, ?_⟩, counted_eraseKeys hFollows.counted, (unique_congr hShape).trans hFollows.shared⟩
  · intro other hOther
    rw [hSame]
    exact hFollows.keyed other ((mem_filter_record hRecord).mp hOther).1
  · intro entry
    simp only [mem_eraseKeys, hFollows.mem_iff, mem_filter_record hRecord, hSame]
    constructor
    · rintro ⟨⟨other, hOther, own, hOwn, hKey, hBookmark⟩, hKept⟩
      refine ⟨other, ⟨hOther, ?_⟩, own, hOwn, hKey, hBookmark⟩
      rintro rfl
      obtain rfl := Except.ok.inj (hOwn.symm.trans hKeys)
      exact hKept ⟨hBookmark, hKey⟩
    · rintro ⟨other, ⟨hOther, hApart⟩, own, hOwn, hKey, hBookmark⟩
      refine ⟨⟨other, hOther, own, hOwn, hKey, hBookmark⟩, ?_⟩
      rintro ⟨hSameBookmark, -⟩
      exact hApart
        (StoredRecord.eq_of_bookmark_eq hOther hRecord (hBookmark.symm.trans hSameBookmark))

theorem Follows.add (hFollows : slot.Follows records.toList)
    (hFree : ∀ record ∈ records.toList, record.bookmark ≠ bookmark)
    (hKeys : slot.keysFor row = .ok keys) :
    ∃ added, addKeys bookmark keys.toList slot = (.ok (), added) ∧ added.clear = slot.clear ∧
      added.Follows (records.insert ⟨bookmark, row⟩).toList := by
  have hNew : ∀ key ∈ keys.toList, ⟨key, bookmark⟩ ∉ slot.index.entries.toList := by
    intro key _ hEntry
    obtain ⟨record, hRecord, -, -, -, hBookmark⟩ := (hFollows.mem_iff _).mp hEntry
    exact hFree record hRecord hBookmark.symm
  obtain ⟨added, hAdded, hShape, hCounted, hMem⟩ :=
    addKeys_eq_ok hFollows.shared hFollows.counted keys.nodup hNew
  have hSame := keysFor_congr hShape
  refine ⟨added, hAdded, hShape, ⟨⟨?_, ?_⟩, hCounted, (unique_congr hShape).trans hFollows.shared⟩⟩
  · intro record hRecord
    rw [hSame]
    rcases (mem_insert_record hFree).mp hRecord with rfl | hOld
    · exact ⟨keys, hKeys⟩
    · exact hFollows.keyed record hOld
  · intro entry
    simp only [hMem, hFollows.mem_iff, mem_insert_record hFree, hSame]
    constructor
    · rintro (⟨record, hRecord, own⟩ | ⟨hBookmark, hKey⟩)
      · exact ⟨record, .inr hRecord, own⟩
      · exact ⟨_, .inl rfl, keys, hKeys, hKey, hBookmark⟩
    · rintro ⟨record, rfl | hRecord, own, hOwn, hKey, hBookmark⟩
      · obtain rfl := Except.ok.inj (hOwn.symm.trans hKeys)
        exact .inr ⟨hBookmark, hKey⟩
      · exact .inl ⟨record, hRecord, own, hOwn, hKey, hBookmark⟩

end Slot

namespace Store

/-- The keys to remove from each index are those of the row under which the record is stored. -/
theorem follows_eraseFromSlots {record : StoredRecord} {slots : List Slot} {keys : List KeySet}
    (hRecord : record ∈ records.toList)
    (hKeys : List.Forall₂ (fun slot keys => slot.keysFor record.row = .ok keys) slots keys)
    (hFollows : ∀ slot ∈ slots, slot.Follows records.toList) :
    (eraseFromSlots record.bookmark slots keys).map Slot.clear = slots.map Slot.clear ∧
      ∀ slot ∈ eraseFromSlots record.bookmark slots keys, slot.Follows
        (records.filter fun other => decide (other.bookmark ≠ record.bookmark)).toList := by
  induction hKeys with
  | nil => exact ⟨rfl, by simp [eraseFromSlots]⟩
  | cons hOwn _ ih =>
      obtain ⟨hFirst, hRest⟩ := List.forall_mem_cons.mp hFollows
      obtain ⟨hShapes, hErased⟩ := ih hRest
      refine ⟨?_, List.forall_mem_cons.mpr ⟨hFirst.erase hRecord hOwn, hErased⟩⟩
      rw [eraseFromSlots, List.map_cons, List.map_cons, Slot.clear_eraseKeys, hShapes]

theorem addToSlots_eq_ok {slots : List Slot} {keys : List KeySet}
    (hFree : ∀ record ∈ records.toList, record.bookmark ≠ bookmark)
    (hKeys : List.Forall₂ (fun slot keys => slot.keysFor row = .ok keys) slots keys)
    (hFollows : ∀ slot ∈ slots, slot.Follows records.toList) :
    ∃ added, addToSlots bookmark slots keys = (.ok (), added) ∧
      added.map Slot.clear = slots.map Slot.clear ∧
      ∀ slot ∈ added, slot.Follows (records.insert ⟨bookmark, row⟩).toList := by
  induction hKeys with
  | nil => exact ⟨[], rfl, rfl, by simp⟩
  | cons hOwn _ ih =>
      obtain ⟨hFirst, hRest⟩ := List.forall_mem_cons.mp hFollows
      obtain ⟨first, hAddFirst, hShape, hFirstFollows⟩ := hFirst.add hFree hOwn
      obtain ⟨rest, hAddRest, hShapes, hRestFollows⟩ := ih hRest
      refine ⟨first :: rest, ?_, ?_, List.forall_mem_cons.mpr ⟨hFirstFollows, hRestFollows⟩⟩
      · simp only [addToSlots, hAddFirst, hAddRest]
      · rw [List.map_cons, List.map_cons, hShape, hShapes]

/-- What every change of a store keeps. The first part says that only the records distinguish the
store from the one its table was given at first. -/
structure Invariant (table : Table) (store : Store) : Prop where
  shape : create table = .ok store.clear
  conformed : ∀ record ∈ store.records.toList, ∃ given, table.conformRow given = .ok record.row
  clustered : ∀ entry, entry ∈ store.clustering.index.entries.toList ↔
    ∃ record ∈ store.records.toList, entry = .clustering record.bookmark
  counted : store.clustering.index.Counted
  secondary : ∀ slot ∈ store.secondary, slot.Follows store.records.toList
  primary : table.primaryKey?.isSome → ∀ record ∈ store.records.toList,
    store.clusteringKey record.row = .ok ⟨record.bookmark.bytes⟩

variable {table : Table} {store : Store}

theorem Invariant.of_create (hCreate : create table = .ok store) : Invariant table store := by
  have hEmpty := clear_of_create hCreate
  have hRecords : store.records.toList = [] := by
    rw [← hEmpty]
    rfl
  have hSlots : ∀ slot ∈ store.secondary, slot.Follows [] := by
    intro slot hSlot
    obtain ⟨index, hIndex, hSlotCreate⟩ := (create_eq_ok hCreate).2.2.2.2.exists_of_mem_right hSlot
    obtain ⟨hClear, -, -, hUnique, -⟩ := Slot.create_eq_ok hSlotCreate
    have hNotPrimary : index.primary = false := by simpa using (List.mem_filter.mp hIndex).2
    exact Slot.follows_nil hClear (hUnique.trans hNotPrimary)
  refine ⟨hEmpty.symm ▸ hCreate, ?_, ?_, ?_, hRecords ▸ hSlots, ?_⟩
  · simp [hRecords]
  · rw [hRecords, ← hEmpty]
    simp [clear, Slot.clear, OrderedIndex.clear, OrderedSet.empty]
  · rw [← hEmpty]
    exact OrderedIndex.counted_clear
  · simp [hRecords]

theorem Invariant.dropRecord {record : StoredRecord} {keys : List KeySet}
    (hStore : Invariant table store) (hRecord : record ∈ store.records.toList)
    (hKeys : store.secondaryKeys record.row = .ok keys) :
    Invariant table (store.dropRecord record.bookmark keys) ∧
      (store.dropRecord record.bookmark keys).clear = store.clear := by
  obtain ⟨hSlots, hFollows⟩ :=
    follows_eraseFromSlots hRecord (Except.mapM_eq_ok_iff.mp hKeys) hStore.secondary
  have hMem : ∀ other, other ∈ (store.dropRecord record.bookmark keys).records.toList ↔
      other ∈ store.records.toList ∧ other ≠ record := fun other => mem_filter_record hRecord
  have hShape : (store.dropRecord record.bookmark keys).clear = store.clear :=
    clear_congr rfl (by simp [Store.dropRecord, Slot.clear, OrderedIndex.clear_erase]) hSlots
  refine ⟨⟨hShape ▸ hStore.shape, ?_, ?_, hStore.counted.erase, hFollows, ?_⟩, hShape⟩
  · intro other hOther
    exact hStore.conformed other ((hMem other).mp hOther).1
  · intro entry
    simp only [hMem]
    rw [Store.dropRecord, OrderedIndex.mem_erase, hStore.clustered]
    constructor
    · rintro ⟨⟨other, hOther, rfl⟩, hApart⟩
      refine ⟨other, ⟨hOther, ?_⟩, rfl⟩
      rintro rfl
      exact hApart rfl
    · rintro ⟨other, ⟨hOther, hApart⟩, rfl⟩
      refine ⟨⟨other, hOther, rfl⟩, fun hSame => hApart ?_⟩
      exact StoredRecord.eq_of_bookmark_eq hOther hRecord (congrArg Entry.bookmark hSame)
  · intro hPrimary other hOther
    rw [clusteringKey_congr hShape (table_of_create hStore.shape ▸ hPrimary)]
    exact hStore.primary hPrimary other ((hMem other).mp hOther).1

/-- The store with one more record, whose entries are already in the secondary indices. -/
def including (store : Store) (placement : Placement) (secondary : List Slot) : Store :=
  { store with
    clustering :=
      { store.clustering with
        index := store.clustering.index.including (.clustering placement.bookmark) }
    secondary := secondary
    records := store.records.insert ⟨placement.bookmark, placement.row⟩ }

theorem Invariant.including {placement : Placement} {given : Row} {secondary : List Slot}
    (hStore : Invariant table store) (hConform : table.conformRow given = .ok placement.row)
    (hFree : ∀ record ∈ store.records.toList, record.bookmark ≠ placement.bookmark)
    (hPrimary : table.primaryKey?.isSome → store.clusteringKey placement.row = .ok placement.key)
    (hSlots : secondary.map Slot.clear = store.secondary.map Slot.clear)
    (hFollows : ∀ slot ∈ secondary, slot.Follows
      (store.records.insert ⟨placement.bookmark, placement.row⟩).toList) :
    Invariant table (store.including placement secondary) := by
  have hMem : ∀ record, record ∈ (store.including placement secondary).records.toList ↔
      record = ⟨placement.bookmark, placement.row⟩ ∨ record ∈ store.records.toList :=
    fun record => mem_insert_record hFree
  have hNew : Entry.clustering placement.bookmark ∉ store.clustering.index.entries.toList := by
    intro hEntry
    obtain ⟨record, hRecord, hSame⟩ := (hStore.clustered _).mp hEntry
    exact hFree record hRecord (congrArg Entry.bookmark hSame).symm
  have hShape : (store.including placement secondary).clear = store.clear :=
    clear_congr rfl rfl hSlots
  refine ⟨hShape ▸ hStore.shape, ?_, ?_, hStore.counted.including hNew, hFollows, ?_⟩
  · intro record hRecord
    rcases (hMem record).mp hRecord with rfl | hOld
    · exact ⟨given, hConform⟩
    · exact hStore.conformed record hOld
  · intro entry
    simp only [hMem]
    rw [Store.including, OrderedIndex.mem_including, hStore.clustered]
    constructor
    · rintro (rfl | ⟨record, hRecord, rfl⟩)
      · exact ⟨_, .inl rfl, rfl⟩
      · exact ⟨record, .inr hRecord, rfl⟩
    · rintro ⟨record, rfl | hRecord, rfl⟩
      · exact .inl rfl
      · exact .inr ⟨record, hRecord, rfl⟩
  · intro hKey record hRecord
    rw [clusteringKey_congr hShape (table_of_create hStore.shape ▸ hKey)]
    rcases (hMem record).mp hRecord with rfl | hOld
    · exact hPrimary hKey
    · exact hStore.primary hKey record hOld

/-- A record whose bookmark is free is stored without fail. -/
theorem Invariant.addRecord {placement : Placement} {given : Row} (hStore : Invariant table store)
    (hConform : table.conformRow given = .ok placement.row)
    (hFree : ∀ record ∈ store.records.toList, record.bookmark ≠ placement.bookmark)
    (hKeys : store.secondaryKeys placement.row = .ok placement.keys)
    (hPrimary : table.primaryKey?.isSome → store.clusteringKey placement.row = .ok placement.key) :
    ∃ after, store.addRecord placement = (.ok placement.bookmark, after) ∧
      Invariant table after := by
  have hInsert : store.clustering.index.insert ⟨placement.key, placement.bookmark⟩ =
      (.ok (), store.clustering.index.including (.clustering placement.bookmark)) := by
    refine OrderedIndex.insert_eq_ok ?_ fun _ other hOther hKey => ?_
    · intro hEntry
      obtain ⟨record, hRecord, hSame⟩ := (hStore.clustered _).mp hEntry
      exact hFree record hRecord (congrArg Entry.bookmark hSame).symm
    · obtain ⟨record, -, rfl⟩ := (hStore.clustered other).mp hOther
      exact congrArg (fun key : Key => (⟨key.bytes⟩ : Bookmark)) hKey
  obtain ⟨added, hAdded, hSlots, hFollows⟩ :=
    addToSlots_eq_ok hFree (Except.mapM_eq_ok_iff.mp hKeys) hStore.secondary
  refine ⟨store.including placement added, ?_,
    hStore.including hConform hFree hPrimary hSlots hFollows⟩
  simp only [Store.addRecord, hInsert, hAdded]
  rfl

theorem Invariant.with_nextSequence {number : Nat} (hStore : Invariant table store) :
    Invariant table { store with nextSequence := number } := by
  refine ⟨hStore.shape, hStore.conformed, hStore.clustered, hStore.counted, hStore.secondary, ?_⟩
  intro hKey record hRecord
  have hShape : clear { store with nextSequence := number } = store.clear := rfl
  rw [clusteringKey_congr hShape (table_of_create hStore.shape ▸ hKey)]
  exact hStore.primary hKey record hRecord

theorem placeNew_eq_ok {placement : Placement} (hPlace : store.placeNew row = .ok placement) :
    store.table.conformRow row = .ok placement.row ∧
      store.clusteringKey placement.row = .ok placement.key ∧
      store.contains placement.bookmark = false ∧
      store.secondaryKeys placement.row = .ok placement.keys := by
  simp only [placeNew, Except.bind_eq_ok_iff, Except.mapError_eq_ok_iff, Except.guard_eq_ok_iff,
    Except.pure_eq_ok_iff] at hPlace
  obtain ⟨conformed, hConform, key, hKey, hFree, keys, hKeys, rfl⟩ := hPlace
  exact ⟨hConform, hKey, Bool.not_eq_true _ ▸ hFree, hKeys⟩

theorem placeAgain_eq_ok {placement : Placement} {oldKeys : List KeySet}
    (hPlace : store.placeAgain bookmark row = .ok (oldKeys, placement)) :
    ∃ old, store.get? bookmark = some old ∧ store.table.conformRow row = .ok placement.row ∧
      (if store.table.primaryKey?.isSome then store.clusteringKey placement.row
        else .ok ⟨bookmark.bytes⟩) = .ok placement.key ∧
      (placement.bookmark ≠ bookmark → store.contains placement.bookmark = false) ∧
      store.secondaryKeys old = .ok oldKeys ∧
      store.secondaryKeys placement.row = .ok placement.keys := by
  unfold placeAgain at hPlace
  cases hOld : store.get? bookmark with
  | none => simp [hOld, Except.throw_eq_ok_iff] at hPlace
  | some old =>
      simp only [hOld, Except.bind_eq_ok_iff, Except.mapError_eq_ok_iff] at hPlace
      obtain ⟨conformed, hConform, hPlace⟩ := hPlace
      have hRest : ∃ key, (if store.table.primaryKey?.isSome then store.clusteringKey conformed
            else .ok ⟨bookmark.bytes⟩) = .ok key ∧
          ¬(key.bytes ≠ bookmark.bytes ∧ store.contains ⟨key.bytes⟩) ∧
          ∃ old', store.secondaryKeys old = .ok old' ∧ ∃ keys,
            store.secondaryKeys conformed = .ok keys ∧
              (old', (⟨conformed, key, keys⟩ : Placement)) = (oldKeys, placement) := by
        by_cases hPrimary : store.table.primaryKey?.isSome
        · simpa only [hPrimary, if_true, Except.bind_eq_ok_iff, Except.guard_eq_ok_iff,
            Except.pure_eq_ok_iff] using hPlace
        · simpa only [hPrimary, Bool.false_eq_true, if_false, Except.bind_eq_ok_iff,
            Except.guard_eq_ok_iff, Except.pure_eq_ok_iff] using hPlace
      obtain ⟨key, hKey, hFree, old', hOldKeys, keys, hKeys, hSame⟩ := hRest
      obtain ⟨rfl, rfl⟩ := Prod.mk.inj hSame
      refine ⟨old, rfl, hConform, hKey, fun hOther => ?_, hOldKeys, hKeys⟩
      rw [← Bool.not_eq_true]
      exact fun hTaken => hFree ⟨fun hSame => hOther (congrArg Bookmark.mk hSame), hTaken⟩

/-- A row that has a place is stored without fail. -/
theorem Invariant.addRecord_of_placeNew {placement : Placement} (hStore : Invariant table store)
    (hPlace : store.placeNew row = .ok placement) :
    ∃ after, store.addRecord placement = (.ok placement.bookmark, after) ∧
      Invariant table after := by
  obtain ⟨hConform, hKey, hFree, hKeys⟩ := placeNew_eq_ok hPlace
  exact hStore.addRecord (table_of_create hStore.shape ▸ hConform) (contains_eq_false_iff.mp hFree)
    hKeys fun _ => hKey

/-- A record whose new values have a place is taken away and stored again without fail. -/
theorem Invariant.addRecord_of_placeAgain {placement : Placement} {oldKeys : List KeySet}
    (hStore : Invariant table store)
    (hPlace : store.placeAgain bookmark row = .ok (oldKeys, placement)) :
    ∃ after, (store.dropRecord bookmark oldKeys).addRecord placement =
        (.ok placement.bookmark, after) ∧ Invariant table after := by
  have hTable := table_of_create hStore.shape
  obtain ⟨old, hOld, hConform, hKey, hFree, hOldKeys, hKeys⟩ := placeAgain_eq_ok hPlace
  have hRecord := get?_eq_some_iff.mp hOld
  obtain ⟨hDropped, hShape⟩ := hStore.dropRecord hRecord hOldKeys
  have hStillFree : ∀ record ∈ (store.dropRecord bookmark oldKeys).records.toList,
      record.bookmark ≠ placement.bookmark := by
    intro record hKept hSame
    obtain ⟨hBefore, hApart⟩ := (mem_filter_record hRecord).mp hKept
    by_cases hOwn : placement.bookmark = bookmark
    · exact hApart (StoredRecord.eq_of_bookmark_eq hBefore hRecord (hSame.trans hOwn))
    · exact contains_eq_false_iff.mp (hFree hOwn) record hBefore hSame
  refine hDropped.addRecord (hTable ▸ hConform) hStillFree (secondaryKeys_congr hShape _ ▸ hKeys) ?_
  intro hPrimary
  rw [if_pos (hTable ▸ hPrimary)] at hKey
  rw [clusteringKey_congr hShape (hTable ▸ hPrimary)]
  exact hKey

/-- One step: no change, whether it succeeds or fails, breaks the invariant. -/
theorem Invariant.apply (hStore : Invariant table store) (operation : StoreOperation) :
    Invariant table (store.apply operation) := by
  cases operation with
  | insert row =>
      simp only [Store.apply, Store.insert]
      cases hPlace : store.placeNew row with
      | error e => exact hStore
      | ok placement =>
          obtain ⟨after, hAdd, hAfter⟩ := hStore.addRecord_of_placeNew hPlace
          simp only [hAdd]
          split
          · exact hAfter
          · exact hAfter.with_nextSequence
  | replace bookmark row =>
      simp only [Store.apply, Store.replace]
      cases hPlace : store.placeAgain bookmark row with
      | error e => exact hStore
      | ok placed =>
          obtain ⟨after, hAdd, hAfter⟩ := hStore.addRecord_of_placeAgain hPlace
          simp only [hAdd]
          exact hAfter
  | delete bookmark =>
      simp only [Store.apply, Store.delete]
      cases hGet : store.get? bookmark with
      | none => exact hStore
      | some row =>
          cases hKeys : store.secondaryKeys row with
          | error e =>
              simp only [hKeys]
              exact hStore
          | ok keys =>
              simp only [hKeys]
              exact (hStore.dropRecord (get?_eq_some_iff.mp hGet) hKeys).1
  | clear => exact .of_create hStore.shape

theorem Reachable.invariant (hStore : Reachable table store) : Invariant table store := by
  induction hStore with
  | created hCreated => exact .of_create hCreated
  | changed _ operation ih => exact ih.apply operation

/-- The indices of a store agree with its records. A counter is a machine word, so that the total is
the number of entries as such a word. -/
structure Agrees (store : Store) : Prop where
  clustering : store.clustering.index.entries.toList =
    store.records.toList.map fun record => .clustering record.bookmark
  secondary : ∀ slot ∈ store.secondary, slot.AgreesWith store.records.toList
  distinct : ∀ slot ∈ store.clustering :: store.secondary, slot.index.entries.toList.Nodup
  counted : ∀ slot ∈ store.clustering :: store.secondary, slot.index.Counted
  primary : store.table.primaryKey?.isSome → ∀ record ∈ store.records.toList,
    store.clusteringKey record.row = .ok ⟨record.bookmark.bytes⟩

theorem agrees_of_reachable (hStore : Reachable table store) : store.Agrees := by
  have hInvariant := hStore.invariant
  refine ⟨?_, ?_, ?_, ?_, ?_⟩
  · -- Both lists ascend, so that it is enough to compare their members.
    refine OrderedSet.eq_of_ascending store.clustering.index.entries.ascending ?_ fun entry => ?_
    · refine List.pairwise_map.mpr (store.records.ascending.imp fun {a b} hLess => ?_)
      have hBytes : compare a.bookmark.bytes b.bookmark.bytes = .lt := hLess
      have hKeys :
          compare (Entry.clustering a.bookmark).key (Entry.clustering b.bookmark).key = .lt := hBytes
      rw [Entry.order, hKeys]
      rfl
    · rw [hInvariant.clustered, List.mem_map]
      simp only [eq_comm]
  · exact fun slot hSlot => (hInvariant.secondary slot hSlot).toAgreesWith
  · exact fun slot _ => slot.index.entries.nodup
  · exact List.forall_mem_cons.mpr
      ⟨hInvariant.counted, fun slot hSlot => (hInvariant.secondary slot hSlot).counted⟩
  · rw [table_of_create hInvariant.shape]
    exact hInvariant.primary

/-- A run over a table with a primary key, an index over a list and an index over suffixes. The
replacement moves the record, and the second insertion fails. -/
theorem agrees_of_reachable_after_replacement :
    let table : Table :=
      { name := "notes"
        columns := [⟨"id", .int32, false, false, 0⟩, ⟨"tags", .bytes, false, true, 1⟩,
          ⟨"body", .bytes, true, false, 2⟩]
        indices := [⟨"pkNotes", "notes", [⟨"id", .ascending⟩], true, .standard, 1⟩,
          ⟨"byTag", "notes", [⟨"tags", .descending⟩, ⟨"id", .ascending⟩], false, .standard, 1⟩,
          ⟨"byBody", "notes", [⟨"body", .ascending⟩], false, .tuple, 2⟩] }
    let operations : List StoreOperation :=
      [.insert [.int32 7, .list [.bytes [1], .bytes [2], .bytes [1]], .bytes [5, 6, 7]],
        .replace ⟨[2, 128, 0, 0, 7]⟩ [.int32 8, .list [.bytes [2]], .bytes [5, 6]],
        .insert [.int32 8, .list [], .null]]
    ∃ first, create table = .ok first ∧ (operations.foldl apply first).size = 1 ∧
      Reachable table (operations.foldl apply first) ∧ (operations.foldl apply first).Agrees := by
  intro table operations
  have hReachable := (Reachable.created (rfl : create table = .ok _)).foldl operations
  exact ⟨_, rfl, by decide, hReachable, agrees_of_reachable hReachable⟩

end Store

end IndexedTable

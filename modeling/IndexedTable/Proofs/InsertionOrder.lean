import IndexedTable.Proofs.WholeIndex

/-! Records without a primary key. Their bookmarks are the numbers of their insertions, in an
encoding that keeps the order of numbers, so that the clustering index stays in the order of
insertion. A number is used up by a successful insertion only, and never given out again. -/

namespace IndexedTable

namespace Store

/-- The bookmark of the record that was inserted after so many others. -/
def numbered (number : Nat) : Bookmark :=
  ⟨KeyLayout.bytes [⟨.int64, .ascending⟩] [.int64 (.ofNat number)]⟩

theorem fits_number (number : Nat) :
    KeyLayout.Fits [⟨.int64, .ascending⟩] [.int64 (.ofNat number)] :=
  ⟨.inr rfl, trivial⟩

/-- The numbers below the signed range of a key keep their order. -/
theorem compare_numbered {m n : Nat} (hLess : m < n) (hWord : n < 2 ^ 63) :
    compare (numbered m) (numbered n) = .lt := by
  have hOrder : (Value.int64 (.ofNat m)).keyOrder (.int64 (.ofNat n)) = .lt := by
    rw [Value.keyOrder, Value.order, Int64.toInt_ofNat_of_lt (hLess.trans hWord),
      Int64.toInt_ofNat_of_lt hWord]
    exact Int.compare_eq_lt.mpr (by omega)
    all_goals simp
  have hSettled := KeyLayout.settled?_bytes (fits_number m) (fits_number n) rfl
  have hCompare := compare_of_settled hSettled
  rw [KeyLayout.keyOrder, KeyLayout.lexicographic, hOrder] at hCompare
  exact hCompare

/-- The bookmark that an insertion returned, if the change was one and succeeded. -/
def inserted? (store : Store) : StoreOperation → Option Bookmark
  | .insert row => (store.insert row).1.toOption
  | .replace _ _ | .delete _ | .clear => none

/-- The bookmarks that the insertions of a run returned, in their order. -/
def insertedBy (store : Store) : List StoreOperation → List Bookmark
  | [] => []
  | operation :: operations =>
    (store.inserted? operation).toList ++ (store.apply operation).insertedBy operations

/-- The insertions so far are numbered from zero, and the records are among them. -/
structure Numbered (store : Store) (inserted : List Bookmark) : Prop where
  next : store.nextSequence = inserted.length
  word : inserted.length ≤ 2 ^ 63
  numbers : inserted = (List.range inserted.length).map numbered
  stored : ∀ record ∈ store.records.toList, record.bookmark ∈ inserted

variable {table : Table} {store first after : Store} {inserted : List Bookmark} {row given : Row}
  {bookmark moved : Bookmark} {key : Key}

theorem Numbered.ascending (hNumbered : store.Numbered inserted) :
    inserted.Pairwise fun a b => compare a b = .lt := by
  rw [hNumbered.numbers, List.pairwise_map]
  refine List.pairwise_lt_range.imp_of_mem fun _ hn hLess => ?_
  exact compare_numbered hLess (Nat.lt_of_lt_of_le (List.mem_range.mp hn) hNumbered.word)

theorem Numbered.of_create (hCreate : create table = .ok first) : first.Numbered [] := by
  obtain ⟨-, hRecords, hNext, -, -⟩ := create_eq_ok hCreate
  exact ⟨hNext, by simp, rfl, by simp [hRecords, OrderedSet.empty]⟩

section WithoutPrimaryKey

variable (hNone : table.primaryKey? = none)

include hNone

theorem Invariant.isSome_eq_false (hStore : Invariant table store) :
    store.table.primaryKey?.isSome = false := by
  rw [table_of_create hStore.shape, hNone]
  rfl

theorem Invariant.clustering_of_none (hStore : Invariant table store) :
    store.clustering.clear = sequenceSlot table := by
  obtain ⟨-, -, -, hClustering, -⟩ := create_eq_ok hStore.shape
  rw [hNone] at hClustering
  exact hClustering

/-- The clustering key of a new record is its number, whatever its values. -/
theorem Invariant.clusteringKey_of_none (hStore : Invariant table store) (row : Row) :
    store.clusteringKey row =
      if store.nextSequence < 2 ^ 63 then .ok ⟨(numbered store.nextSequence).bytes⟩
      else .error (.keyTypeMismatch .int64 (toString store.nextSequence)) := by
  have hLayout : store.clustering.index.layout = [⟨.int64, .ascending⟩] :=
    congrArg (fun slot : Slot => slot.index.layout) (hStore.clustering_of_none hNone)
  rw [clusteringKey, table_of_create hStore.shape, hNone, if_neg (by simp), hLayout,
    KeyLayout.makeKey_of_fits (fits_number _)]
  rfl

theorem Invariant.numbered_of_clusteringKey (hStore : Invariant table store)
    (hKey : store.clusteringKey row = .ok ⟨bookmark.bytes⟩) :
    store.nextSequence < 2 ^ 63 ∧ bookmark = numbered store.nextSequence := by
  rw [hStore.clusteringKey_of_none hNone] at hKey
  split at hKey
  · rename_i hWord
    exact ⟨hWord, congrArg (fun key : Key => (⟨key.bytes⟩ : Bookmark)) (Except.ok.inj hKey).symm⟩
  · cases hKey

theorem Numbered.after_insertion (hNumbered : store.Numbered inserted)
    (hStore : Invariant table store) (hInserted : Inserted table store after given bookmark row) :
    after.Numbered (inserted ++ [bookmark]) := by
  obtain ⟨hWord, rfl⟩ := hStore.numbered_of_clusteringKey hNone hInserted.key
  have hNext := hInserted.nextSequence
  rw [hNone, if_neg (by simp)] at hNext
  rw [hNumbered.next] at hWord hNext ⊢
  have hLength : (inserted ++ [numbered inserted.length]).length = inserted.length + 1 :=
    List.length_append
  refine ⟨hNext.trans hLength.symm, hLength ▸ hWord, ?_, fun record hRecord => ?_⟩
  · rw [hLength, List.range_succ, List.map_append, ← hNumbered.numbers]
    rfl
  · rw [hInserted.records, mem_insert_record (contains_eq_false_iff.mp hInserted.free)] at hRecord
    rcases hRecord with rfl | hOld
    · exact List.mem_append_right _ (hNumbered.next ▸ List.mem_singleton_self _)
    · exact List.mem_append_left _ (hNumbered.stored record hOld)

theorem Numbered.after_replacement (hNumbered : store.Numbered inserted)
    (hStore : Invariant table store)
    (hReplaced : Replaced table store after bookmark given moved row) :
    after.Numbered inserted := by
  obtain rfl := hReplaced.own (hStore.isSome_eq_false hNone)
  obtain ⟨old, hGet⟩ := hReplaced.stored
  have hNext := hReplaced.nextSequence.trans hNumbered.next
  refine { hNumbered with next := hNext, stored := fun record hRecord => ?_ }
  rw [hReplaced.records] at hRecord
  rcases OrderedSet.mem_insert.mp hRecord with rfl | ⟨hOld, -⟩
  · exact hNumbered.stored ⟨moved, old⟩ (get?_eq_some_iff.mp hGet)
  · exact hNumbered.stored record (List.mem_of_mem_filter hOld)

omit hNone in
theorem Numbered.after_deletion (hNumbered : store.Numbered inserted)
    (hDeleted : Deleted store after bookmark row) : after.Numbered inserted := by
  have hNext := hDeleted.nextSequence.trans hNumbered.next
  refine { hNumbered with next := hNext, stored := fun record hRecord => ?_ }
  rw [hDeleted.records] at hRecord
  exact hNumbered.stored record (List.mem_of_mem_filter hRecord)

/-- One step: a successful insertion takes the next number, and no other change gives a bookmark
that was not there. -/
theorem Numbered.apply {operation : StoreOperation} (hNumbered : store.Numbered inserted)
    (hStore : Invariant table store) (hKeep : operation ≠ .clear) :
    (store.apply operation).Numbered (inserted ++ (store.inserted? operation).toList) := by
  cases operation with
  | insert given =>
      rw [Store.apply, inserted?]
      cases hResult : (store.insert given).1 with
      | error e =>
          rw [hStore.intactAfter_insert given e hResult]
          simpa [Except.toOption] using hNumbered
      | ok bookmark =>
          obtain ⟨row, hInserted⟩ := hStore.inserted_of_insert (Prod.ext hResult rfl)
          exact hNumbered.after_insertion hNone hStore hInserted
  | replace bookmark given =>
      rw [Store.apply, inserted?, Option.toList_none, List.append_nil]
      cases hResult : (store.replace bookmark given).1 with
      | error e =>
          rw [hStore.intactAfter_replace bookmark given e hResult]
          exact hNumbered
      | ok moved =>
          obtain ⟨row, hReplaced⟩ := hStore.replaced_of_replace (Prod.ext hResult rfl)
          exact hNumbered.after_replacement hNone hStore hReplaced
  | delete bookmark =>
      rw [Store.apply, inserted?, Option.toList_none, List.append_nil]
      cases hResult : (store.delete bookmark).1 with
      | error e =>
          rw [store.intactAfter_delete bookmark e hResult]
          exact hNumbered
      | ok row => exact hNumbered.after_deletion (deleted_of_delete (Prod.ext hResult rfl))
  | clear => exact absurd rfl hKeep

/-- A whole run without a clearing. -/
theorem Numbered.foldl {operations : List StoreOperation} (hNumbered : store.Numbered inserted)
    (hStore : Reachable table store) (hKeep : .clear ∉ operations) :
    (operations.foldl Store.apply store).Numbered (inserted ++ store.insertedBy operations) := by
  induction operations generalizing store inserted with
  | nil => simpa [insertedBy] using hNumbered
  | cons operation operations ih =>
      obtain ⟨hFirst, hRest⟩ := not_or.mp (List.mem_cons.not.mp hKeep)
      have hStep := hNumbered.apply hNone hStore.invariant (Ne.symm hFirst)
      have hRun := ih hStep (hStore.changed operation) hRest
      rwa [List.append_assoc] at hRun

/-- While the numbers last, a row that conforms is inserted, under a bookmark after all others. -/
theorem Numbered.exists_insert (hNumbered : store.Numbered inserted) (hTable : table.WellFormed)
    (hStore : Invariant table store) (hWord : inserted.length < 2 ^ 63)
    (hConform : table.conformRow given = .ok row) :
    ∃ bookmark, (store.insert given).1 = .ok bookmark ∧
      ∀ earlier ∈ inserted, compare earlier bookmark = .lt := by
  have hKey := hStore.clusteringKey_of_none hNone row
  rw [hNumbered.next, if_pos hWord] at hKey
  have hLater : ∀ earlier ∈ inserted, compare earlier (numbered inserted.length) = .lt := by
    intro earlier hEarlier
    rw [hNumbered.numbers] at hEarlier
    obtain ⟨number, hNumber, rfl⟩ := List.mem_map.mp hEarlier
    exact compare_numbered (List.mem_range.mp hNumber) hWord
  have hFree : store.contains (numbered inserted.length) = false := by
    refine contains_eq_false_iff.mpr fun record hRecord hSame => ?_
    have hSelf := hLater _ (hSame ▸ hNumbered.stored record hRecord)
    simp at hSelf
  obtain ⟨keys, hKeys⟩ := hStore.exists_secondaryKeys_of_conformRow hTable hConform
  obtain ⟨after, hInsert⟩ := hStore.exists_insert hConform hKey hFree hKeys
  exact ⟨_, congrArg Prod.fst hInsert, hLater⟩

/-- A record keeps its bookmark whatever its values become. -/
theorem Invariant.replace_of_none (hStore : Invariant table store) (hTable : table.WellFormed)
    (hStored : store.contains bookmark = true) (hConform : table.conformRow given = .ok row) :
    (store.replace bookmark given).1 = .ok bookmark := by
  obtain ⟨old, hGet⟩ := Option.isSome_iff_exists.mp hStored
  obtain ⟨keys, hKeys⟩ := hStore.exists_secondaryKeys_of_conformRow hTable hConform
  obtain ⟨after, hReplace, -⟩ := hStore.exists_replace hGet hConform
    (keyAgain_of_none (hStore.isSome_eq_false hNone)) (fun hOther => absurd rfl hOther) hKeys
  rw [hReplace]

end WithoutPrimaryKey

/-- The records stand in the order of their insertion. -/
theorem Numbered.map_bookmark_records (hNumbered : store.Numbered inserted) :
    store.records.toList.map (·.bookmark) = inserted.filter store.contains := by
  refine OrderedSet.eq_of_ascending (List.pairwise_map.mpr store.records.ascending)
    (hNumbered.ascending.filter _) fun bookmark => ?_
  rw [List.mem_map, List.mem_filter, contains_iff_exists]
  constructor
  · rintro ⟨record, hRecord, rfl⟩
    exact ⟨hNumbered.stored record hRecord, record, hRecord, rfl⟩
  · rintro ⟨-, record, hRecord, rfl⟩
    exact ⟨record, hRecord, rfl⟩

/-- A store whose records are numbered by their insertion, so that the clustering index returns them
in that order. -/
structure KeepsInsertionOrder (store : Store) (inserted : List Bookmark) : Prop where
  increasing : inserted.Pairwise fun a b => compare a b = .lt
  counted : store.nextSequence = inserted.length
  accepted : inserted.length < 2 ^ 63 → ∀ given row, store.table.conformRow given = .ok row →
    ∃ bookmark, (store.insert given).1 = .ok bookmark ∧
      ∀ earlier ∈ inserted, compare earlier bookmark = .lt
  refused : ∀ given e, (store.insert given).1 = .error e → (store.insert given).2 = store
  replaced : ∀ bookmark given moved, (store.replace bookmark given).1 = .ok moved →
    moved = bookmark
  kept : ∀ bookmark given row, store.contains bookmark = true →
    store.table.conformRow given = .ok row → (store.replace bookmark given).1 = .ok bookmark
  stored : ∀ bookmark, store.contains bookmark = true → bookmark ∈ inserted
  scanned : ∀ cursor : Cursor, cursor.On store → ∀ target ∈ [none, some sequenceIndex],
    ∀ reversed distinct,
      let scan := Filter.scan ⟨.wholeIndex target reversed, distinct⟩ cursor
      let survivors := inserted.filter store.contains
      scan.toEnd.items = (if reversed then survivors.reverse else survivors).map .ok ∧
        scan.toEnd.ended = true

theorem Numbered.scan_wholeIndex {cursor : Cursor} {target : Option String}
    (hNumbered : store.Numbered inserted) (hTable : table.WellFormed)
    (hNone : table.primaryKey? = none) (hReachable : Reachable table store)
    (hCursor : cursor.On store) (hTarget : target ∈ [none, some sequenceIndex])
    (reversed distinct : Bool) :
    let scan := Filter.scan ⟨.wholeIndex target reversed, distinct⟩ cursor
    let survivors := inserted.filter store.contains
    scan.toEnd.items = (if reversed then survivors.reverse else survivors).map .ok ∧
      scan.toEnd.ended = true := by
  intro scan survivors
  have hName : store.clusteringName = sequenceIndex := by
    rw [clusteringName_of_create hReachable.invariant, hNone]
    rfl
  have hSlot : store.slot target = .ok store.clustering := by
    rcases List.mem_pair.mp hTarget with rfl | rfl
    · rfl
    · rw [slot, if_pos hName.symm]
  have hVisits : scan.Visits (store.clustering.index.path reversed) :=
    visits_of_unbounded hTable hReachable hCursor hSlot trivial
  have hEntries : store.clustering.index.entries.toList.map (·.bookmark) = survivors := by
    rw [(agrees_of_reachable hReachable).clustering, List.map_map]
    exact hNumbered.map_bookmark_records
  have hPath : (store.clustering.index.path reversed).map (·.bookmark) =
      if reversed then survivors.reverse else survivors := by
    rw [OrderedIndex.path, ← hEntries]
    split
    · exact List.map_reverse
    · rfl
  have hOnce : ((store.clustering.index.path reversed).map (·.bookmark)).Nodup :=
    Filter.nodup_map_path hReachable.invariant.nodup_clustering_bookmarks
  refine ⟨?_, hVisits.ended⟩
  rw [hVisits.items, ← hPath, Filter.returned, List.eraseDups_of_nodup hOnce, ite_self]

/-- A table without a primary key keeps the order of insertion through every run without a clearing,
from the store that a clearing leaves as from a new one, whichever changes of the run fail. The
bookmarks of successive insertions increase, so that none comes again; the next number counts the
insertions that succeeded; replacements keep the bookmark; and the clustering index returns the
records that are left in the order of their insertion, or in reverse. -/
theorem keepsInsertionOrder_of_run {name : String} {steps : List Declaration}
    {operations : List StoreOperation} (hDeclare : Table.declare name steps = .ok table)
    (hNone : table.primaryKey? = none) (hCreate : create table = .ok first)
    (hKeep : .clear ∉ operations) :
    (operations.foldl apply first).KeepsInsertionOrder (first.insertedBy operations) := by
  have hTable := Table.wellFormed_of_declare hDeclare
  have hFirst : Reachable table first := .created hCreate
  have hReachable := hFirst.foldl operations
  have hStore := hReachable.invariant
  have hSame := table_of_create hStore.shape
  have hNumbered := (Numbered.of_create hCreate).foldl hNone hFirst hKeep
  rw [List.nil_append] at hNumbered
  refine ⟨hNumbered.ascending, hNumbered.next, ?_, hStore.intactAfter_insert, ?_, ?_, ?_, ?_⟩
  · intro hWord given row hConform
    exact hNumbered.exists_insert hNone hTable hStore hWord (hSame ▸ hConform)
  · intro bookmark given moved hReplace
    obtain ⟨row, hReplaced⟩ := hStore.replaced_of_replace (Prod.ext hReplace rfl)
    exact hReplaced.own (hStore.isSome_eq_false hNone)
  · intro bookmark given row hStored hConform
    exact hStore.replace_of_none hNone hTable hStored (hSame ▸ hConform)
  · intro bookmark hStored
    obtain ⟨record, hRecord, rfl⟩ := contains_iff_exists.mp hStored
    exact hNumbered.stored record hRecord
  · intro cursor hCursor target hTarget reversed distinct
    exact hNumbered.scan_wholeIndex hTable hNone hReachable hCursor hTarget reversed distinct

/-- A run in which an insertion fails, and a replacement and a deletion come before the last one. -/
theorem keepsInsertionOrder_of_run_with_deletion :
    let table : Table :=
      { name := "events"
        columns := [⟨"kind", .bytes, true, false, 0⟩]
        indices := [⟨"byKind", "events", [⟨"kind", .ascending⟩], false, .standard, 1⟩] }
    let operations : List StoreOperation :=
      [.insert [.bytes [9]], .insert [.bytes [1, 2]], .insert [.int32 5],
        .replace ⟨[2, 128, 0, 0, 0, 0, 0, 0, 1]⟩ [.bytes [10]],
        .delete ⟨[2, 128, 0, 0, 0, 0, 0, 0, 0]⟩, .insert [.null]]
    let inserted : List Bookmark :=
      [⟨[2, 128, 0, 0, 0, 0, 0, 0, 0]⟩, ⟨[2, 128, 0, 0, 0, 0, 0, 0, 1]⟩,
        ⟨[2, 128, 0, 0, 0, 0, 0, 0, 2]⟩]
    ∃ first, create table = .ok first ∧
      let store := operations.foldl apply first
      store.KeepsInsertionOrder inserted ∧
        (Filter.scan ⟨.wholeIndex none true, false⟩ (store.cursor .byValues)).toEnd.items =
          [.ok ⟨[2, 128, 0, 0, 0, 0, 0, 0, 2]⟩, .ok ⟨[2, 128, 0, 0, 0, 0, 0, 0, 1]⟩] := by
  intro table operations inserted
  have hDeclare : Table.declare "events" [.column "kind" .bytes, .index "byKind" ["kind"]] =
      .ok table := rfl
  obtain ⟨first, hCreate, hInserted, hLeft⟩ : ∃ first, create table = .ok first ∧
      first.insertedBy operations = inserted ∧
      (inserted.filter (operations.foldl apply first).contains).reverse =
        [⟨[2, 128, 0, 0, 0, 0, 0, 0, 2]⟩, ⟨[2, 128, 0, 0, 0, 0, 0, 0, 1]⟩] :=
    ⟨_, rfl, by decide +kernel, by decide +kernel⟩
  have hKeeps := keepsInsertionOrder_of_run hDeclare rfl hCreate
    (show .clear ∉ operations by simp [operations])
  rw [hInserted] at hKeeps
  obtain ⟨hItems, -⟩ := hKeeps.scanned _ (cursor_on _ .byValues) none List.mem_cons_self true false
  refine ⟨first, hCreate, hKeeps, hItems.trans ?_⟩
  rw [if_pos rfl, hLeft]
  rfl

end Store

end IndexedTable

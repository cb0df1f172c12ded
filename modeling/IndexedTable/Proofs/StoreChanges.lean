import IndexedTable.Proofs.StoreFailures

/-! What the changes of a store do when they succeed, and when they do. An insertion adds a record
under a bookmark that was free, a deletion takes one away, and a replacement does both; only an
insertion without a primary key uses up a number. -/

namespace IndexedTable

namespace Store

variable {table : Table} {store after : Store} {bookmark moved : Bookmark} {given row old : Row}
  {key : Key}

theorem contains_iff_exists : store.contains bookmark = true ↔
    ∃ record ∈ store.records.toList, record.bookmark = bookmark := by
  rw [← Bool.not_eq_false, contains_eq_false_iff]
  push Not
  exact Iff.rfl

/-- The key in the clustering index of a record that gets new values. -/
def keyAgain (store : Store) (bookmark : Bookmark) (row : Row) : Except IndexError Key :=
  if store.table.primaryKey?.isSome then store.clusteringKey row else .ok ⟨bookmark.bytes⟩

theorem keyAgain_of_some (hPrimary : store.table.primaryKey?.isSome) :
    store.keyAgain bookmark row = store.clusteringKey row :=
  if_pos hPrimary

theorem keyAgain_of_none (hNone : store.table.primaryKey?.isSome = false) :
    store.keyAgain bookmark row = .ok ⟨bookmark.bytes⟩ :=
  if_neg (Bool.eq_false_iff.mp hNone)

theorem placeNew_eq {keys : List KeySet} (hConform : store.table.conformRow given = .ok row)
    (hKey : store.clusteringKey row = .ok key) (hKeys : store.secondaryKeys row = .ok keys) :
    store.placeNew given =
      if store.contains ⟨key.bytes⟩ then .error (.duplicateKey store.clusteringName)
      else .ok ⟨row, key, keys⟩ := by
  simp only [placeNew, hConform, Except.mapError, bind, Except.bind, hKey, hKeys]
  split <;> rfl

theorem placeAgain_eq {oldKeys keys : List KeySet} (hGet : store.get? bookmark = some old)
    (hConform : store.table.conformRow given = .ok row)
    (hKey : store.keyAgain bookmark row = .ok key)
    (hOldKeys : store.secondaryKeys old = .ok oldKeys)
    (hKeys : store.secondaryKeys row = .ok keys) :
    store.placeAgain bookmark given =
      if key.bytes ≠ bookmark.bytes ∧ store.contains ⟨key.bytes⟩ then
        .error (.duplicateKey store.clusteringName)
      else .ok (oldKeys, ⟨row, key, keys⟩) := by
  simp only [placeAgain, hGet, hConform, Except.mapError, bind, Except.bind, hKeys, hOldKeys]
  cases hPrimary : store.table.primaryKey?.isSome with
  | true =>
      rw [keyAgain_of_some hPrimary] at hKey
      simp only [hKey, if_true]
      split <;> rfl
  | false =>
      rw [keyAgain_of_none hPrimary] at hKey
      obtain rfl := Except.ok.inj hKey
      simp only [Bool.false_eq_true, if_false]
      split <;> rfl

theorem addRecord_eq_ok {placement : Placement}
    (hAdd : store.addRecord placement = (.ok bookmark, after)) :
    bookmark = placement.bookmark ∧ after.table = store.table ∧
      after.nextSequence = store.nextSequence ∧
      after.records = store.records.insert ⟨placement.bookmark, placement.row⟩ := by
  unfold addRecord at hAdd
  rcases hInsert : store.clustering.index.insert ⟨placement.key, placement.bookmark⟩ with
    ⟨_ | _, index⟩
  · simp [hInsert] at hAdd
  · simp only [hInsert] at hAdd
    rcases hSlots : addToSlots placement.bookmark store.secondary placement.keys with
      ⟨_ | _, secondary⟩
    · simp [hSlots] at hAdd
    · simp only [hSlots, Prod.mk.injEq, Except.ok.injEq] at hAdd
      obtain ⟨rfl, rfl⟩ := hAdd
      exact ⟨rfl, rfl, rfl, rfl⟩

/-- What a successful insertion did. -/
structure Inserted (table : Table) (store after : Store) (given : Row) (bookmark : Bookmark)
    (row : Row) : Prop where
  conformed : table.conformRow given = .ok row
  key : store.clusteringKey row = .ok ⟨bookmark.bytes⟩
  free : store.contains bookmark = false
  records : after.records = store.records.insert ⟨bookmark, row⟩
  nextSequence : after.nextSequence =
    if table.primaryKey?.isSome then store.nextSequence else store.nextSequence + 1

theorem Invariant.inserted_of_insert (hStore : Invariant table store)
    (hInsert : store.insert given = (.ok bookmark, after)) :
    ∃ row, Inserted table store after given bookmark row := by
  have hTable := table_of_create hStore.shape
  unfold Store.insert at hInsert
  cases hPlace : store.placeNew given with
  | error e => simp [hPlace] at hInsert
  | ok placement =>
      obtain ⟨added, hAdd, -⟩ := hStore.addRecord_of_placeNew hPlace
      obtain ⟨hConform, hKey, hFree, -⟩ := placeNew_eq_ok hPlace
      obtain ⟨-, hSame, hNext, hRecords⟩ := addRecord_eq_ok hAdd
      simp only [hPlace, hAdd, hSame, hTable] at hInsert
      cases hPrimary : table.primaryKey?.isSome with
      | true =>
          rw [hPrimary, if_pos rfl] at hInsert
          obtain ⟨hBookmark, rfl⟩ := Prod.mk.inj hInsert
          obtain rfl := Except.ok.inj hBookmark
          exact ⟨placement.row, hTable ▸ hConform, hKey, hFree, hRecords, by simp [hPrimary, hNext]⟩
      | false =>
          rw [hPrimary, if_neg Bool.false_ne_true] at hInsert
          obtain ⟨hBookmark, rfl⟩ := Prod.mk.inj hInsert
          obtain rfl := Except.ok.inj hBookmark
          exact ⟨placement.row, hTable ▸ hConform, hKey, hFree, hRecords, by simp [hPrimary, hNext]⟩

/-- A row that conforms is inserted without fail where the bookmark of its key is free. -/
theorem Invariant.exists_insert {keys : List KeySet} (hStore : Invariant table store)
    (hConform : table.conformRow given = .ok row)
    (hKey : store.clusteringKey row = .ok ⟨bookmark.bytes⟩)
    (hFree : store.contains bookmark = false) (hKeys : store.secondaryKeys row = .ok keys) :
    ∃ after, store.insert given = (.ok bookmark, after) := by
  have hPlace := placeNew_eq (table_of_create hStore.shape ▸ hConform) hKey hKeys
  rw [hFree, if_neg Bool.false_ne_true] at hPlace
  obtain ⟨added, hAdd, -⟩ := hStore.addRecord_of_placeNew hPlace
  simp only [Store.insert, hPlace, hAdd]
  split
  · exact ⟨_, rfl⟩
  · exact ⟨_, rfl⟩

/-- What a successful deletion did. -/
structure Deleted (store after : Store) (bookmark : Bookmark) (row : Row) : Prop where
  stored : store.get? bookmark = some row
  records : after.records = store.records.filter fun record => decide (record.bookmark ≠ bookmark)
  nextSequence : after.nextSequence = store.nextSequence

theorem deleted_of_delete (hDelete : store.delete bookmark = (.ok row, after)) :
    Deleted store after bookmark row := by
  unfold delete at hDelete
  cases hGet : store.get? bookmark with
  | none => simp [hGet] at hDelete
  | some old =>
      cases hKeys : store.secondaryKeys old with
      | error e => simp [hGet, hKeys] at hDelete
      | ok keys =>
          simp only [hGet, hKeys, Prod.mk.injEq, Except.ok.injEq] at hDelete
          obtain ⟨rfl, rfl⟩ := hDelete
          exact ⟨hGet, rfl, rfl⟩

/-- A stored record is deleted without fail. -/
theorem Invariant.exists_delete (hStore : Invariant table store)
    (hGet : store.get? bookmark = some row) :
    ∃ after, store.delete bookmark = (.ok row, after) ∧ Invariant table after := by
  obtain ⟨keys, hKeys⟩ := hStore.exists_secondaryKeys hGet
  exact ⟨store.dropRecord bookmark keys, by simp only [Store.delete, hGet, hKeys],
    (hStore.dropRecord (get?_eq_some_iff.mp hGet) hKeys).1⟩

/-- What a successful replacement did. -/
structure Replaced (table : Table) (store after : Store) (bookmark : Bookmark) (given : Row)
    (moved : Bookmark) (row : Row) : Prop where
  stored : ∃ old, store.get? bookmark = some old
  conformed : table.conformRow given = .ok row
  key : store.keyAgain bookmark row = .ok ⟨moved.bytes⟩
  free : moved ≠ bookmark → store.contains moved = false
  records : after.records = (store.records.filter fun record =>
    decide (record.bookmark ≠ bookmark)).insert ⟨moved, row⟩
  nextSequence : after.nextSequence = store.nextSequence

/-- Without a primary key a record keeps its bookmark. -/
theorem Replaced.own (hReplaced : Replaced table store after bookmark given moved row)
    (hNone : store.table.primaryKey?.isSome = false) : moved = bookmark := by
  have hKey := hReplaced.key
  rw [keyAgain_of_none hNone] at hKey
  exact congrArg (fun key : Key => (⟨key.bytes⟩ : Bookmark)) (Except.ok.inj hKey).symm

theorem Invariant.replaced_of_replace (hStore : Invariant table store)
    (hReplace : store.replace bookmark given = (.ok moved, after)) :
    ∃ row, Replaced table store after bookmark given moved row := by
  have hTable := table_of_create hStore.shape
  unfold Store.replace at hReplace
  cases hPlace : store.placeAgain bookmark given with
  | error e => simp [hPlace] at hReplace
  | ok placed =>
      obtain ⟨oldKeys, placement⟩ := placed
      obtain ⟨old, hGet, hConform, hKey, hFree, -, -⟩ := placeAgain_eq_ok hPlace
      simp only [hPlace] at hReplace
      obtain ⟨rfl, -, hNext, hRecords⟩ := addRecord_eq_ok hReplace
      exact ⟨placement.row, ⟨old, hGet⟩, hTable ▸ hConform, hKey, hFree, hRecords, hNext⟩

/-- A stored record is replaced without fail where its new bookmark is free. -/
theorem Invariant.exists_replace {keys : List KeySet} (hStore : Invariant table store)
    (hGet : store.get? bookmark = some old) (hConform : table.conformRow given = .ok row)
    (hKey : store.keyAgain bookmark row = .ok ⟨moved.bytes⟩)
    (hFree : moved ≠ bookmark → store.contains moved = false)
    (hKeys : store.secondaryKeys row = .ok keys) :
    ∃ after, store.replace bookmark given = (.ok moved, after) ∧ Invariant table after := by
  obtain ⟨oldKeys, hOldKeys⟩ := hStore.exists_secondaryKeys hGet
  have hPlace :=
    placeAgain_eq hGet (table_of_create hStore.shape ▸ hConform) hKey hOldKeys hKeys
  rw [if_neg] at hPlace
  · obtain ⟨after, hAdd, hAfter⟩ := hStore.addRecord_of_placeAgain hPlace
    refine ⟨after, ?_, hAfter⟩
    simp only [Store.replace, hPlace]
    exact hAdd
  · rintro ⟨hOther, hTaken⟩
    rw [hFree fun hSame => hOther (congrArg Bookmark.bytes hSame)] at hTaken
    cases hTaken

end Store

end IndexedTable

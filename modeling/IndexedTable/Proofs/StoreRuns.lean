import IndexedTable.Proofs.IndexEntries

/-! Runs of a store: the state that insertions, replacements, deletions and clearings leave behind,
whether they succeed or fail. Emptied of its records, a store is the one its table was given at
first, however it was reached. -/

namespace IndexedTable

/-- Two records of a store do not share a bookmark. -/
theorem StoredRecord.eq_of_bookmark_eq {records : OrderedSet StoredRecord StoredRecord.order}
    {a b : StoredRecord} (ha : a ∈ records.toList) (hb : b ∈ records.toList)
    (hSame : a.bookmark = b.bookmark) : a = b := by
  refine OrderedSet.eq_of_compare_eq ha hb ?_
  rw [order, hSame]
  exact Std.ReflCmp.compare_self

/-- One change of a store. -/
inductive StoreOperation where
  | insert (row : Row)
  | replace (bookmark : Bookmark) (row : Row)
  | delete (bookmark : Bookmark)
  | clear

namespace Store

variable {table : Table} {store after : Store} {bookmark : Bookmark} {row : Row}

/-- The store that a change leaves behind, also where it fails. -/
def apply (store : Store) : StoreOperation → Store
  | .insert row => (store.insert row).2
  | .replace bookmark row => (store.replace bookmark row).2
  | .delete bookmark => (store.delete bookmark).2
  | .clear => store.clear

/-- The stores of a table: its first one, and what any change leaves of another. -/
inductive Reachable (table : Table) : Store → Prop where
  | created {store : Store} (hCreated : create table = .ok store) : Reachable table store
  | changed {store : Store} (hStore : Reachable table store) (operation : StoreOperation) :
      Reachable table (store.apply operation)

theorem Reachable.foldl (hStore : Reachable table store) (operations : List StoreOperation) :
    Reachable table (operations.foldl apply store) := by
  induction operations generalizing store with
  | nil => exact hStore
  | cons operation operations ih => exact ih (hStore.changed operation)

end Store

namespace Slot

/-- The keys of a row depend on the definition of an index and not on its entries. -/
theorem keysFor_congr {slot other : Slot} (hShape : slot.clear = other.clear) (row : Row) :
    slot.keysFor row = other.keysFor row :=
  congrArg (fun shape => shape.keysFor row) hShape

theorem unique_congr {slot other : Slot} (hShape : slot.clear = other.clear) :
    slot.index.unique = other.index.unique :=
  congrArg (fun shape => shape.index.unique) hShape

theorem create_eq_ok {table : Table} {definition : IndexDefinition} {slot : Slot}
    (hCreate : create table definition = .ok slot) :
    slot.clear = slot ∧ slot.definition = definition ∧ slot.index.name = definition.name ∧
      slot.index.unique = definition.primary ∧
      KeyLayout.ofParts table definition.columns = .ok slot.index.layout ∧
      ∃ columns, columnsOf table definition.columns = .ok columns ∧
        slot.positions = columns.map (·.position) ∧
        slot.multiValued = multiValuedPlace columns := by
  simp only [create, Except.bind_eq_ok_iff, Except.mapError_eq_ok_iff, Except.pure_eq_ok_iff]
    at hCreate
  obtain ⟨layout, hLayout, columns, hColumns, rfl⟩ := hCreate
  exact ⟨rfl, rfl, rfl, rfl, hLayout, columns, hColumns, rfl, rfl⟩

end Slot

namespace Store

variable {table : Table} {store after : Store} {bookmark : Bookmark} {row : Row}

theorem create_eq_ok (hCreate : create table = .ok store) :
    store.table = table ∧ store.records = .empty ∧ store.nextSequence = 0 ∧
      (match table.primaryKey? with
        | some key => Slot.create table key = .ok store.clustering
        | none => store.clustering = sequenceSlot table) ∧
      List.Forall₂ (fun index slot => Slot.create table index = .ok slot)
        (table.indices.filter fun index => !index.primary) store.secondary := by
  unfold create at hCreate
  cases hKey : table.primaryKey? with
  | none =>
      simp only [hKey, Except.bind_eq_ok_iff, Except.mapM_eq_ok_iff, Except.pure_eq_ok_iff]
        at hCreate
      obtain ⟨clustering, hClustering, secondary, hSecondary, rfl⟩ := hCreate
      exact ⟨rfl, rfl, rfl, (Except.ok.inj hClustering).symm, hSecondary⟩
  | some key =>
      simp only [hKey, Except.bind_eq_ok_iff, Except.mapM_eq_ok_iff, Except.pure_eq_ok_iff]
        at hCreate
      obtain ⟨clustering, hClustering, secondary, hSecondary, rfl⟩ := hCreate
      exact ⟨rfl, rfl, rfl, hClustering, hSecondary⟩

/-- A new store is empty already. -/
theorem clear_of_create (hCreate : create table = .ok store) : store.clear = store := by
  obtain ⟨-, hRecords, hSequence, hClustering, hSecondary⟩ := create_eq_ok hCreate
  have hSlot : store.clustering.clear = store.clustering := by
    cases hKey : table.primaryKey? with
    | none =>
        rw [hKey] at hClustering
        rw [hClustering]
        rfl
    | some key =>
        rw [hKey] at hClustering
        exact (Slot.create_eq_ok hClustering).1
  have hSlots : store.secondary.map Slot.clear = store.secondary := by
    refine (List.map_congr_left fun slot hSlot => ?_).trans (List.map_id _)
    obtain ⟨index, -, hIndex⟩ := hSecondary.exists_of_mem_right hSlot
    exact (Slot.create_eq_ok hIndex).1
  rw [clear, hSlot, hSlots, ← hRecords, ← hSequence]

theorem table_of_create (hCreate : create table = .ok store.clear) : store.table = table :=
  (create_eq_ok hCreate).1

theorem clear_congr (hTable : after.table = store.table)
    (hClustering : after.clustering.clear = store.clustering.clear)
    (hSecondary : after.secondary.map Slot.clear = store.secondary.map Slot.clear) :
    after.clear = store.clear := by
  rw [clear, clear, hTable, hClustering, hSecondary]

theorem eq_of_clear_eq (hShape : after.clear = store.clear) :
    after.table = store.table ∧ after.clustering.clear = store.clustering.clear ∧
      after.secondary.map Slot.clear = store.secondary.map Slot.clear := by
  simp only [clear, Store.mk.injEq] at hShape
  exact ⟨hShape.1, hShape.2.1, hShape.2.2.1⟩

/-- The keys of a row do not depend on the records of a store. -/
theorem secondaryKeys_congr (hShape : after.clear = store.clear) (row : Row) :
    after.secondaryKeys row = store.secondaryKeys row := by
  have hClear : ∀ other : Store, other.secondaryKeys row = other.clear.secondaryKeys row := by
    intro other
    simp only [secondaryKeys, clear, List.mapM_map]
    rfl
  rw [hClear, hShape, ← hClear]

theorem clusteringKey_congr (hShape : after.clear = store.clear)
    (hPrimary : store.table.primaryKey?.isSome) (row : Row) :
    after.clusteringKey row = store.clusteringKey row := by
  obtain ⟨hTable, hSlot, -⟩ := eq_of_clear_eq hShape
  rw [clusteringKey, clusteringKey, hTable, if_pos hPrimary, if_pos hPrimary,
    Slot.keysFor_congr hSlot]

theorem get?_eq_some_iff : store.get? bookmark = some row ↔
    ⟨bookmark, row⟩ ∈ store.records.toList := by
  constructor
  · intro hGet
    obtain ⟨record, hFind, rfl⟩ := Option.map_eq_some_iff.mp hGet
    obtain rfl : record.bookmark = bookmark := by simpa using List.find?_some hFind
    exact List.mem_of_find?_eq_some hFind
  · intro hRecord
    cases hFind : store.records.toList.find? fun record => decide (record.bookmark = bookmark) with
    | none => simpa using List.find?_eq_none.mp hFind _ hRecord
    | some record =>
        have hSame : record.bookmark = bookmark := by simpa using List.find?_some hFind
        obtain rfl := StoredRecord.eq_of_bookmark_eq (List.mem_of_find?_eq_some hFind) hRecord hSame
        rw [get?, hFind]
        rfl

/-- A record of a bookmark is known by its values. -/
theorem exists_record_iff (wanted : Row → Prop) :
    (∃ record ∈ store.records.toList, record.bookmark = bookmark ∧ wanted record.row) ↔
      ∃ row, store.get? bookmark = some row ∧ wanted row := by
  simp only [get?_eq_some_iff]
  constructor
  · rintro ⟨⟨_, row⟩, hRecord, rfl, hRow⟩
    exact ⟨row, hRecord, hRow⟩
  · rintro ⟨row, hRecord, hRow⟩
    exact ⟨_, hRecord, rfl, hRow⟩

theorem contains_eq_false_iff : store.contains bookmark = false ↔
    ∀ record ∈ store.records.toList, record.bookmark ≠ bookmark := by
  simp [contains, get?]

end Store

end IndexedTable

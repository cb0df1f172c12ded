import IndexedTable.Proofs.Declarations
import IndexedTable.Proofs.StoreAgreement
import Mathlib.Data.List.Nodup

/-! The indices of a store under the names that its table declares. No two have one name, so that a
declared index is found, with its entries, where the store was given it. -/

namespace IndexedTable

theorem checkName_sequenceIndex : checkName Store.sequenceIndex ≠ .ok () := by decide

/-- Of a list with one element at most that passes a test, the first such element is any. -/
theorem find?_eq_some_of_countP_le_one {α : Type} {p : α → Bool} {xs : List α} {x : α}
    (hCount : xs.countP p ≤ 1) (hx : x ∈ xs) (hp : p x = true) : xs.find? p = some x := by
  induction xs with
  | nil => cases hx
  | cons y ys ih =>
      rw [List.countP_cons] at hCount
      rw [List.find?_cons]
      rcases List.mem_cons.mp hx with rfl | hx
      · rw [hp]
      · cases hy : p y with
        | false => exact ih (by simpa [hy] using hCount) hx
        | true =>
            have hNone : ys.countP p = 0 := by simpa [hy] using hCount
            exact absurd hp (List.countP_eq_zero.mp hNone x hx)

namespace Store

variable {table : Table} {store : Store}

theorem slot_mem {name : Option String} {slot : Slot} (hSlot : store.slot name = .ok slot) :
    slot ∈ store.clustering :: store.secondary := by
  cases name with
  | none =>
      cases hSlot
      exact List.mem_cons_self
  | some name =>
      by_cases hName : name = store.clusteringName
      · rw [Store.slot, if_pos hName] at hSlot
        cases hSlot
        exact List.mem_cons_self
      · rw [Store.slot, if_neg hName] at hSlot
        cases hFind : store.secondary.find? fun slot => slot.index.name == name with
        | none => simp [hFind] at hSlot
        | some found =>
            rw [hFind] at hSlot
            cases hSlot
            exact List.mem_cons_of_mem _ (List.mem_of_find?_eq_some hFind)

/-- Of the indices of one name, a store with distinct names has one. -/
theorem slot_eq_of_name_eq {slot other : Slot} (hNames : store.indexNames.Nodup)
    (hSlot : slot ∈ store.clustering :: store.secondary)
    (hOther : other ∈ store.clustering :: store.secondary)
    (hName : slot.index.name = other.index.name) : slot = other := by
  have hMap : ((store.clustering :: store.secondary).map fun slot => slot.index.name).Nodup :=
    hNames
  exact List.inj_on_of_nodup_map hMap hSlot hOther hName

/-- No other slot stands before it under its name. -/
theorem slot_of_mem {slot : Slot} (hNames : store.indexNames.Nodup)
    (hSlot : slot ∈ store.clustering :: store.secondary) :
    store.slot (some slot.index.name) = .ok slot := by
  by_cases hName : slot.index.name = store.clusteringName
  · rw [Store.slot, if_pos hName, slot_eq_of_name_eq hNames hSlot List.mem_cons_self hName]
  · rw [Store.slot, if_neg hName]
    cases hFind : store.secondary.find? fun other => other.index.name == slot.index.name with
    | none =>
        rcases List.mem_cons.mp hSlot with rfl | hSecondary
        · exact absurd rfl hName
        · simpa using List.find?_eq_none.mp hFind slot hSecondary
    | some found =>
        have hFound := List.mem_cons_of_mem store.clustering (List.mem_of_find?_eq_some hFind)
        have hSame : found.index.name = slot.index.name := by simpa using List.find?_some hFind
        rw [slot_eq_of_name_eq hNames hFound hSlot hSame]

theorem clear_clustering_of_create {key : IndexDefinition} (hStore : Invariant table store)
    (hKey : table.primaryKey? = some key) :
    Slot.create table key = .ok store.clustering.clear := by
  obtain ⟨-, -, -, hClustering, -⟩ := create_eq_ok hStore.shape
  rw [hKey] at hClustering
  exact hClustering

theorem clusteringName_of_create (hStore : Invariant table store) :
    store.clusteringName = (table.primaryKey?.map (·.name)).getD sequenceIndex := by
  obtain ⟨-, -, -, hClustering, -⟩ := create_eq_ok hStore.shape
  cases hKey : table.primaryKey? with
  | none =>
      rw [hKey] at hClustering
      exact congrArg (fun slot : Slot => slot.index.name) hClustering
  | some key =>
      have hCreate := clear_clustering_of_create hStore hKey
      exact (Slot.create_eq_ok hCreate).2.2.1

/-- What creation takes over from the definition of an index, it does for all of them in order. -/
theorem map_secondary_of_create {α : Type} {ofSlot : Slot → α} {ofIndex : IndexDefinition → α}
    (hStore : Invariant table store)
    (hCreate : ∀ index slot, Slot.create table index = .ok slot.clear →
      ofSlot slot = ofIndex index) :
    store.secondary.map ofSlot =
      (table.indices.filter fun index => !index.primary).map ofIndex := by
  obtain ⟨-, -, -, -, hSecondary⟩ := create_eq_ok hStore.shape
  have hPairs := List.forall₂_map_right_iff.mp hSecondary
  generalize table.indices.filter (fun index => !index.primary) = indices at hPairs
  generalize store.secondary = slots at hPairs
  induction hPairs with
  | nil => rfl
  | cons hPair _ ih => rw [List.map_cons, List.map_cons, hCreate _ _ hPair, ih]

theorem secondaryNames_of_create (hStore : Invariant table store) :
    (store.secondary.map fun slot => slot.index.name) =
      (table.indices.filter fun index => !index.primary).map (·.name) :=
  map_secondary_of_create hStore fun _ _ hCreate => (Slot.create_eq_ok hCreate).2.2.1

theorem indexNames_nodup (hTable : table.WellFormed) (hStore : Invariant table store) :
    store.indexNames.Nodup := by
  have hSecondary := hTable.indexNames.sublist
    ((List.filter_sublist (p := fun index : IndexDefinition => !index.primary)).map (·.name))
  rw [indexNames, secondaryNames_of_create hStore, clusteringName_of_create hStore]
  refine List.nodup_cons.mpr ⟨fun hAgain => ?_, hSecondary⟩
  obtain ⟨index, hIndex, hName⟩ := List.mem_map.mp hAgain
  obtain ⟨hDeclared, hSecond⟩ := List.mem_filter.mp hIndex
  cases hKey : table.primaryKey? with
  | none =>
      rw [hKey] at hName
      have hSequence : index.name = sequenceIndex := hName
      exact checkName_sequenceIndex (hSequence ▸ (hTable.proper index hDeclared).named)
  | some key =>
      rw [hKey] at hName
      obtain rfl : index = key :=
        List.inj_on_of_nodup_map hTable.indexNames hDeclared (List.mem_of_find?_eq_some hKey) hName
      have hPrimary := List.find?_some hKey
      simp [hPrimary] at hSecond

/-- Every declared index is found under its name, as its table defines it. -/
theorem slot_of_index {index : IndexDefinition} (hTable : table.WellFormed)
    (hStore : Invariant table store) (hIndex : index ∈ table.indices) :
    ∃ slot, store.slot (some index.name) = .ok slot ∧
      Slot.create table index = .ok slot.clear ∧
      slot ∈ (if index.primary then [store.clustering] else store.secondary) := by
  cases hPrimary : index.primary with
  | true =>
      have hKey : table.primaryKey? = some index :=
        find?_eq_some_of_countP_le_one hTable.onePrimary hIndex hPrimary
      have hName : index.name = store.clusteringName := by
        rw [clusteringName_of_create hStore, hKey]
        rfl
      exact ⟨store.clustering, by rw [Store.slot, if_pos hName],
        clear_clustering_of_create hStore hKey, by simp⟩
  | false =>
      obtain ⟨-, -, -, -, hSecondary⟩ := create_eq_ok hStore.shape
      obtain ⟨blank, hBlank, hCreate⟩ := hSecondary.exists_of_mem_left
        (List.mem_filter.mpr ⟨hIndex, by simp [hPrimary]⟩)
      obtain ⟨slot, hSlot, rfl⟩ := List.mem_map.mp hBlank
      have hName : slot.index.name = index.name := (Slot.create_eq_ok hCreate).2.2.1
      have hOwn := slot_of_mem (indexNames_nodup hTable hStore) (List.mem_cons_of_mem _ hSlot)
      rw [hName] at hOwn
      exact ⟨slot, hOwn, hCreate, by simpa using hSlot⟩

/-- Every index of a store is a declared one, or numbers the insertions. -/
theorem exists_create_of_mem {slot : Slot} (hStore : Invariant table store)
    (hSlot : slot ∈ store.clustering :: store.secondary) :
    slot.clear = sequenceSlot table ∨
      ∃ index ∈ table.indices, Slot.create table index = .ok slot.clear := by
  obtain ⟨-, -, -, hClustering, hSecondary⟩ := create_eq_ok hStore.shape
  rcases List.mem_cons.mp hSlot with rfl | hSlot
  · cases hKey : table.primaryKey? with
    | none =>
        rw [hKey] at hClustering
        exact .inl hClustering
    | some key =>
        exact .inr ⟨key, List.mem_of_find?_eq_some hKey, clear_clustering_of_create hStore hKey⟩
  · obtain ⟨index, hIndex, hCreate⟩ := hSecondary.exists_of_mem_right (List.mem_map_of_mem hSlot)
    exact .inr ⟨index, (List.mem_filter.mp hIndex).1, hCreate⟩

end Store

end IndexedTable

import IndexedTable.Proofs.ConformedRows
import IndexedTable.Proofs.WholeIndex

/-! What a declaration comes to. A table that its steps complete holds the columns and the indices
they name and is well formed; it can be stored, and every store of it has one index for each
declared one, under its name, and one more that numbers the insertions where none is primary. -/

namespace IndexedTable

theorem DataType.supportsPartialMatch_iff {type : DataType} :
    type.supportsPartialMatch = true ↔ type = .text ∨ type = .bytes := by
  cases type <;> decide

/-- The column that a step of a declaration adds: its name, its type, and whether it is
multi-valued. -/
def Declaration.column? : Declaration → Option (String × DataType × Bool)
  | .column name type => some (name, type, false)
  | .multiValued name type => some (name, type, true)
  | _ => none

/-- The index that a step adds to the table of a name. -/
def Declaration.index? (table : String) : Declaration → Option IndexDefinition
  | .primaryKey key =>
    some ⟨"pk" ++ capitalized table, table, KeyPart.ascending key, true, .standard, 1⟩
  | .index name key => some ⟨name, table, KeyPart.ascending key, false, .standard, 1⟩
  | .orderedIndex name key => some ⟨name, table, key, false, .standard, 1⟩
  | .tupleIndex name part minLength =>
    some ⟨name, table, KeyPart.ascending [part], false, .tuple, minLength⟩
  | .definition given => some { given with table := table }
  | _ => none

/-- What a declaration says of a column besides whether it accepts null. -/
def Column.declared (column : Column) : String × DataType × Bool :=
  (column.name, column.type, column.multiValued)

namespace TableDraft

variable {draft after : TableDraft} {table : Table}

theorem addColumn_eq_ok {column : Column} (hAdd : draft.addColumn column = .ok after) :
    after = { draft with columns := draft.columns ++ [column] } := by
  simp only [addColumn, Except.bind_eq_ok_iff, Except.guard_eq_ok_iff, Except.pure_eq_ok_iff]
    at hAdd
  obtain ⟨-, -, -, rfl⟩ := hAdd
  rfl

theorem addIndex_eq_ok {index : IndexDefinition} (hAdd : draft.addIndex index = .ok after) :
    after = { draft with indices := draft.indices ++ [{ index with table := draft.name }] } := by
  simp only [addIndex, Except.bind_eq_ok_iff, Except.guard_eq_ok_iff, Except.pure_eq_ok_iff] at hAdd
  obtain ⟨-, -, -, -, -, -, -, -, -, -, rfl⟩ := hAdd
  rfl

theorem declared_addNullable (name : String) :
    (draft.addNullable name).columns.map Column.declared = draft.columns.map Column.declared := by
  rw [addNullable, List.map_map]
  refine List.map_congr_left fun column _ => ?_
  simp only [Function.comp_apply, Column.declared]
  split <;> rfl

/-- A step adds the column or the index that it names. -/
theorem declare_eq_ok {step : Declaration} (hDeclare : draft.declare step = .ok after) :
    after.name = draft.name ∧
      after.columns.map Column.declared =
        draft.columns.map Column.declared ++ step.column?.toList ∧
      after.indices = draft.indices ++ (step.index? draft.name).toList := by
  cases step with
  | column | multiValued =>
      rw [addColumn_eq_ok hDeclare]
      exact ⟨rfl, List.map_append, (List.append_nil _).symm⟩
  | nullable names =>
      obtain rfl := Except.ok.inj hDeclare
      simp only [Declaration.column?, Declaration.index?, Option.toList_none, List.append_nil]
      induction names generalizing draft with
      | nil => exact ⟨rfl, rfl, rfl⟩
      | cons name names ih =>
          obtain ⟨hName, hColumns, hIndices⟩ := @ih (draft.addNullable name) rfl
          exact ⟨hName, hColumns.trans (declared_addNullable name), hIndices⟩
  | primaryKey | index | orderedIndex | tupleIndex | definition =>
      rw [addIndex_eq_ok hDeclare]
      exact ⟨rfl, (List.append_nil _).symm, rfl⟩

theorem complete_eq_ok (hComplete : draft.complete = .ok table) :
    table.name = draft.name ∧
      table.columns.map Column.declared = draft.columns.map Column.declared ∧
      table.indices = draft.indices := by
  unfold complete at hComplete
  split at hComplete
  · cases hComplete
  · obtain rfl := Except.ok.inj hComplete
    exact ⟨rfl, List.ext_getElem (by simp) fun place _ _ => by simp [Column.declared], rfl⟩

theorem declareAll_eq_ok {steps : List Declaration} {number : Nat}
    (hDeclare : draft.declareAll number steps = .ok table) :
    table.name = draft.name ∧
      table.columns.map Column.declared =
        draft.columns.map Column.declared ++ steps.filterMap Declaration.column? ∧
      table.indices = draft.indices ++ steps.filterMap (Declaration.index? draft.name) := by
  induction steps generalizing draft number with
  | nil =>
      simpa using complete_eq_ok (Except.mapError_eq_ok_iff.mp hDeclare)
  | cons step steps ih =>
      simp only [declareAll, Except.bind_eq_ok_iff, Except.mapError_eq_ok_iff] at hDeclare
      obtain ⟨after, hStep, hRest⟩ := hDeclare
      obtain ⟨hName, hColumns, hIndices⟩ := ih hRest
      obtain ⟨hSame, hColumn, hIndex⟩ := declare_eq_ok hStep
      refine ⟨hName.trans hSame, ?_, ?_⟩
      · rw [hColumns, hColumn, List.append_assoc, List.filterMap_cons]
        cases step.column? <;> rfl
      · rw [hIndices, hIndex, hSame, List.append_assoc, List.filterMap_cons]
        cases step.index? draft.name <;> rfl

end TableDraft

/-- What the steps of a declaration add is what its table consists of. -/
theorem Table.declared_of_declare {name : String} {steps : List Declaration} {table : Table}
    (hDeclare : Table.declare name steps = .ok table) :
    table.name = name ∧
      table.columns.map Column.declared = steps.filterMap Declaration.column? ∧
      table.indices = steps.filterMap (Declaration.index? name) := by
  simp only [Table.declare, TableDraft.start, Except.bind_eq_ok_iff, Except.mapError_eq_ok_iff,
    Except.pure_eq_ok_iff] at hDeclare
  obtain ⟨_, ⟨-, -, rfl⟩, hSteps⟩ := hDeclare
  exact TableDraft.declareAll_eq_ok hSteps

namespace Store

variable {table : Table} {store : Store}

/-- The slots of a store: one for each index of its table, and one that numbers the insertions
where no index is primary. Each has the name of its definition, under which it is found and which
no other slot has. -/
structure Serves (store : Store) (table : Table) : Prop where
  definitions : ((store.clustering :: store.secondary).map (·.definition)).Perm
    (if table.primaryKey?.isSome then table.indices
      else (sequenceSlot table).definition :: table.indices)
  named : ∀ slot ∈ store.clustering :: store.secondary, slot.index.name = slot.definition.name
  distinct : store.indexNames.Nodup
  found : ∀ slot ∈ store.clustering :: store.secondary,
    store.slot (some slot.definition.name) = .ok slot
  declared : ∀ index ∈ table.indices, ∃ slot columns, store.slot (some index.name) = .ok slot ∧
    slot.KeyedBy table index columns

/-- A table without conflicting indices can be stored. -/
theorem exists_create (hTable : table.WellFormed) : ∃ store, create table = .ok store := by
  obtain ⟨secondary, hSecondary⟩ : ∃ slots,
      (table.indices.filter fun index => !index.primary).mapM (Slot.create table) = .ok slots := by
    refine Except.exists_mapM_eq_ok fun index hIndex => ?_
    exact Slot.exists_create hTable (List.mem_filter.mp hIndex).1
  cases hKey : table.primaryKey? with
  | none => exact ⟨_, by rw [create, hKey, hSecondary]; rfl⟩
  | some key =>
      obtain ⟨slot, hSlot⟩ := Slot.exists_create hTable (List.mem_of_find?_eq_some hKey)
      exact ⟨_, by rw [create, hKey, hSecondary]; simp only [hSlot]; rfl⟩

theorem filter_primary (hTable : table.WellFormed) :
    table.indices.filter (·.primary) = table.primaryKey?.toList := by
  have hLength := hTable.onePrimary
  rw [List.countP_eq_length_filter] at hLength
  rw [Table.primaryKey?, ← List.head?_filter]
  generalize table.indices.filter (·.primary) = keys at hLength
  match keys with
  | [] => rfl
  | [_] => rfl
  | _ :: _ :: _ => simp at hLength

/-- The clustering index comes before the others, wherever it was declared. -/
theorem perm_definitions (hTable : table.WellFormed) (hStore : Invariant table store) :
    ((store.clustering :: store.secondary).map (·.definition)).Perm
      (if table.primaryKey?.isSome then table.indices
        else (sequenceSlot table).definition :: table.indices) := by
  have hPerm := List.filter_append_perm (fun index : IndexDefinition => index.primary) table.indices
  rw [filter_primary hTable] at hPerm
  have hSecondary : store.secondary.map (·.definition) =
      (table.indices.filter fun index => !index.primary).map id :=
    map_secondary_of_create hStore fun _ _ hCreate => (Slot.create_eq_ok hCreate).2.1
  rw [List.map_cons, hSecondary, List.map_id]
  cases hKey : table.primaryKey? with
  | none =>
      obtain ⟨-, -, -, hClustering, -⟩ := create_eq_ok hStore.shape
      rw [hKey] at hClustering hPerm
      have hDefinition : store.clustering.definition = (sequenceSlot table).definition := by
        change store.clear.clustering.definition = _
        rw [hClustering]
      rw [hDefinition]
      exact hPerm.cons _
  | some key =>
      have hDefinition : store.clustering.definition = key :=
        (Slot.create_eq_ok (clear_clustering_of_create hStore hKey)).2.1
      rw [hKey] at hPerm
      rw [hDefinition]
      exact hPerm

theorem name_eq_of_mem {slot : Slot} (hStore : Invariant table store)
    (hSlot : slot ∈ store.clustering :: store.secondary) :
    slot.index.name = slot.definition.name := by
  rcases exists_create_of_mem hStore hSlot with hSequence | ⟨index, -, hCreate⟩
  · change slot.clear.index.name = slot.clear.definition.name
    rw [hSequence]
    rfl
  · obtain ⟨-, hDefinition, hName, -⟩ := Slot.create_eq_ok hCreate
    exact hName.trans (congrArg IndexDefinition.name hDefinition).symm

theorem Invariant.serves (hTable : table.WellFormed) (hStore : Invariant table store) :
    store.Serves table where
  definitions := perm_definitions hTable hStore
  named slot hSlot := name_eq_of_mem hStore hSlot
  distinct := indexNames_nodup hTable hStore
  found slot hSlot := by
    rw [← name_eq_of_mem hStore hSlot]
    exact slot_of_mem (indexNames_nodup hTable hStore) hSlot
  declared index hIndex := by
    obtain ⟨slot, hSlot, hCreate, -⟩ := slot_of_index hTable hStore hIndex
    obtain ⟨columns, hKeyed⟩ := Slot.keyedBy_of_create hCreate
    exact ⟨slot, columns, hSlot, hKeyed⟩

/-- A table that its declaration completes consists of what its steps add and is well formed. It
can be stored, and whatever happens to its store, the store serves each of its indices under the
name of that index. -/
theorem serves_of_declare {name : String} {steps : List Declaration}
    (hDeclare : Table.declare name steps = .ok table) :
    (table.name = name ∧
      table.columns.map Column.declared = steps.filterMap Declaration.column? ∧
      table.indices = steps.filterMap (Declaration.index? name)) ∧
    table.WellFormed ∧
    (∀ index ∈ table.indices, index.isTuple = true → ∃ part column, index.columns = [part] ∧
      table.column? part.column = some column ∧ (column.type = .text ∨ column.type = .bytes)) ∧
    (∃ store, create table = .ok store) ∧
    ∀ store, Reachable table store → store.Serves table := by
  have hTable := Table.wellFormed_of_declare hDeclare
  refine ⟨Table.declared_of_declare hDeclare, hTable, fun index hIndex hTuple => ?_,
    exists_create hTable, fun store hReachable => hReachable.invariant.serves hTable⟩
  obtain ⟨part, column, hColumns, hColumn, hType⟩ := (hTable.proper index hIndex).tuple hTuple
  exact ⟨part, column, hColumns, hColumn, DataType.supportsPartialMatch_iff.mp hType⟩

/-- A column becomes nullable after an index over it, a definition comes from another table, and no
index is primary. -/
theorem serves_of_declare_of_sequence :
    ∃ table first, Table.declare "notes" [.column "id" .int32, .multiValued "tags" .text,
        .index "byTag" ["tags", "id"], .nullable ["tags", "missing"],
        .definition ⟨"inTags", "elsewhere", [⟨"tags", .descending⟩], false, .tuple, 2⟩] =
          .ok table ∧
      create table = .ok first ∧ first.Serves table ∧
      first.indexNames = ["$sequence", "byTag", "inTags"] := by
  obtain ⟨table, hDeclare⟩ : ∃ table, Table.declare "notes" [.column "id" .int32,
      .multiValued "tags" .text, .index "byTag" ["tags", "id"], .nullable ["tags", "missing"],
      .definition ⟨"inTags", "elsewhere", [⟨"tags", .descending⟩], false, .tuple, 2⟩] =
        .ok table := ⟨_, rfl⟩
  obtain ⟨-, -, -, ⟨first, hFirst⟩, hServes⟩ := serves_of_declare hDeclare
  refine ⟨table, first, hDeclare, hFirst, hServes first (.created hFirst), ?_⟩
  obtain rfl := Except.ok.inj hDeclare
  obtain rfl := Except.ok.inj hFirst
  rfl

end Store

end IndexedTable

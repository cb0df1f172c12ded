import IndexedTable.Proofs.KeyOrder
import IndexedTable.Proofs.TableSlots

/-! The keys of a stored row in an index without suffixes: one for each choice of one element from
every key column. At most one column offers a choice, so that the choices are the elements of that
column. Stored values fit their columns, so that no key is refused. -/

namespace IndexedTable

theorem KeyLayout.coerce?_of_fits {layout : KeyLayout} {values : List Value}
    (hFits : layout.Fits values) : layout.coerce? values = some values := by
  induction values generalizing layout with
  | nil => cases layout <;> rfl
  | cons value values ih =>
      cases layout with
      | nil => exact hFits.elim
      | cons column columns =>
          exact coerce?_cons_eq_some.mpr
            ⟨value, values, Value.coerce?_of_fits hFits.1, ih hFits.2, rfl⟩

theorem KeyLayout.makeKey_of_fits {layout : KeyLayout} {values : List Value}
    (hFits : layout.Fits values) : layout.makeKey values .exact = .ok ⟨layout.bytes values⟩ := by
  refine (makeKey_eq_ok_iff rfl).mpr ⟨values, coerce?_of_fits hFits, ?_⟩
  simp [limitMark, KeyLimit.isEnd]

/-- The elements of a multi-valued column. An empty list counts as null. -/
def Value.contributions (value : Value) : List Value :=
  if value.elements.isEmpty then [.null] else value.elements

namespace Column

/-- The values that a column contributes to the keys of a row. -/
def elements (column : Column) (row : Row) : List Value :=
  if column.multiValued then (row.getD column.position .null).contributions
  else [row.getD column.position .null]

/-- What a column stores: a value of its type or null, or a list of them. -/
def Holds (column : Column) (value : Value) : Prop :=
  if column.multiValued then ∃ items, value = .list items ∧ ∀ item ∈ items, item.Fits column.type
  else value.Fits column.type

theorem fits_of_conformScalar {column : Column} {given value : Value}
    (hConform : column.conformScalar given = .ok value) : value.Fits column.type := by
  unfold conformScalar at hConform
  split at hConform
  · cases hConform
  · cases hCoerce : given.coerce? column.type with
    | none => simp [hCoerce] at hConform
    | some coerced =>
        rw [hCoerce] at hConform
        cases hConform
        exact Value.fits_of_coerce? hCoerce

theorem fits_of_conformItems {column : Column} {given items : List Value}
    (hConform : column.conformItems given = .ok items) : ∀ item ∈ items, item.Fits column.type := by
  induction given generalizing items with
  | nil =>
      cases hConform
      simp
  | cons first given ih =>
      simp only [conformItems, Except.bind_eq_ok_iff, Except.pure_eq_ok_iff] at hConform
      obtain ⟨item, hItem, others, hOthers, rfl⟩ := hConform
      exact List.forall_mem_cons.mpr ⟨fits_of_conformScalar hItem, ih hOthers⟩

theorem holds_of_conform {column : Column} {given value : Value}
    (hConform : column.conform given = .ok value) : column.Holds value := by
  unfold conform at hConform
  unfold Holds
  cases hMany : column.multiValued with
  | false => exact fits_of_conformScalar (by simpa [hMany] using hConform)
  | true =>
      simp only [hMany, if_true] at hConform ⊢
      cases given with
      | list items =>
          obtain ⟨stored, hStored, rfl⟩ := Except.map_eq_ok_iff.mp hConform
          exact ⟨stored, rfl, fits_of_conformItems hStored⟩
      | null =>
          cases hConform
          exact ⟨[], rfl, by simp⟩
      | _ => cases hConform

theorem fits_of_mem_elements {column : Column} {row : Row} {element : Value}
    (hHolds : column.Holds (row.getD column.position .null))
    (hElement : element ∈ column.elements row) :
    element.Fits column.type := by
  unfold Holds at hHolds
  unfold elements at hElement
  cases hMany : column.multiValued with
  | false =>
      simp only [hMany, Bool.false_eq_true, if_false, List.mem_singleton] at hHolds hElement
      rw [hElement]
      exact hHolds
  | true =>
      simp only [hMany, if_true] at hHolds hElement
      obtain ⟨items, hValue, hItems⟩ := hHolds
      rw [hValue] at hElement
      cases items with
      | nil =>
          rw [List.mem_singleton.mp hElement]
          exact .inl rfl
      | cons item items => exact hItems element hElement

end Column

namespace Table

variable {table : Table} {row given : Row}

theorem forall₂_of_conformValues {stores : Column → Value → Prop}
    (hStores : ∀ column given value, column.conform given = .ok value → stores column value)
    {columns : List Column} {given row : List Value}
    (hLength : given.length = columns.length) (hConform : conformValues columns given = .ok row) :
    List.Forall₂ stores columns row := by
  induction columns generalizing given row with
  | nil =>
      cases hConform
      exact .nil
  | cons column columns ih =>
      cases given with
      | nil => cases hLength
      | cons value given =>
          simp only [conformValues, Except.bind_eq_ok_iff, Except.pure_eq_ok_iff] at hConform
          obtain ⟨first, hFirst, others, hOthers, rfl⟩ := hConform
          exact .cons (hStores _ _ _ hFirst) (ih (Nat.succ.inj hLength) hOthers)

/-- Conversion keeps the number of values and treats each by its column. -/
theorem forall₂_of_conformRow {stores : Column → Value → Prop}
    (hStores : ∀ column given value, column.conform given = .ok value → stores column value)
    (hConform : table.conformRow given = .ok row) : List.Forall₂ stores table.columns row := by
  unfold conformRow at hConform
  split at hConform
  · cases hConform
  · rename_i hLength
    exact forall₂_of_conformValues hStores (Decidable.not_not.mp hLength) hConform

/-- A stored row holds in every column a value that the column stores. -/
theorem holds_of_conformRow {column : Column} {name : String} (hTable : table.WellFormed)
    (hConform : table.conformRow given = .ok row) (hColumn : table.column? name = some column) :
    column.Holds (row.getD column.position .null) := by
  have hHolds := forall₂_of_conformRow (fun _ _ _ => Column.holds_of_conform) hConform
  obtain ⟨place, hPlace, hGet⟩ := List.getElem_of_mem (List.mem_of_find?_eq_some hColumn)
  have hPosition : column.position = place :=
    hTable.positions place column (hGet ▸ List.getElem?_eq_getElem hPlace)
  obtain ⟨hRowLength, hAt⟩ := List.forall₂_iff_get.mp hHolds
  have hValue := hAt place hPlace (hRowLength ▸ hPlace)
  simp only [List.get_eq_getElem, hGet] at hValue
  rw [hPosition, List.getD_eq_getElem?_getD, List.getElem?_eq_getElem (hRowLength ▸ hPlace)]
  exact hValue

end Table

theorem Slot.columnsOf_eq_ok {table : Table} {parts : List KeyPart} {columns : List Column}
    (hColumns : columnsOf table parts = .ok columns) :
    List.Forall₂ (fun part column => table.column? part.column = some column) parts columns := by
  induction parts generalizing columns with
  | nil =>
      cases hColumns
      exact .nil
  | cons part parts ih =>
      rw [columnsOf] at hColumns
      cases hColumn : table.column? part.column with
      | none => simp [hColumn] at hColumns
      | some column =>
          simp only [hColumn, Except.bind_eq_ok_iff, Except.pure_eq_ok_iff] at hColumns
          obtain ⟨rest, hRest, rfl⟩ := hColumns
          exact .cons hColumn (ih hRest)

theorem KeyLayout.ofParts_eq_ok {table : Table} {parts : List KeyPart} {columns : List Column}
    {layout : KeyLayout}
    (hColumns : List.Forall₂ (fun part column => table.column? part.column = some column)
      parts columns)
    (hLayout : ofParts table parts = .ok layout) :
    layout = List.zipWith (fun part column => ⟨column.type, part.direction⟩) parts columns := by
  induction hColumns generalizing layout with
  | nil =>
      cases hLayout
      rfl
  | cons hColumn _ ih =>
      rw [ofParts, hColumn] at hLayout
      simp only [Except.bind_eq_ok_iff, Except.pure_eq_ok_iff] at hLayout
      obtain ⟨rest, hRest, rfl⟩ := hLayout
      rw [List.zipWith_cons_cons, ih hRest]

namespace Slot

variable {columns : List Column} {row : Row} {values : List Value}

/-- A list with one element at most that passes a test has none, or parts around one. -/
theorem split_of_countP_le_one (hCount : columns.countP (·.multiValued) ≤ 1) :
    (∀ column ∈ columns, column.multiValued = false) ∨
      ∃ front column back, columns = front ++ column :: back ∧ column.multiValued = true ∧
        (∀ other ∈ front, other.multiValued = false) ∧
        ∀ other ∈ back, other.multiValued = false := by
  by_cases hAny : ∃ column ∈ columns, column.multiValued = true
  · obtain ⟨column, hColumn, hMany⟩ := hAny
    obtain ⟨front, back, rfl⟩ := List.append_of_mem hColumn
    rw [List.countP_append, List.countP_cons, if_pos hMany] at hCount
    have hFront : front.countP (·.multiValued) = 0 := by omega
    have hBack : back.countP (·.multiValued) = 0 := by omega
    refine .inr ⟨front, column, back, rfl, hMany, ?_, ?_⟩
    · simpa using List.countP_eq_zero.mp hFront
    · simpa using List.countP_eq_zero.mp hBack
  · exact .inl fun column hColumn => by simpa using fun hMany => hAny ⟨column, hColumn, hMany⟩

theorem multiValuedPlace_of_single (hSingle : ∀ column ∈ columns, column.multiValued = false) :
    multiValuedPlace columns = none := by
  rw [multiValuedPlace, List.findSome?_eq_none_iff]
  intro entry hEntry
  obtain ⟨place, hPlace, rfl⟩ := List.mem_mapIdx.mp (List.mem_reverse.mp hEntry)
  simp [hSingle _ (List.getElem_mem hPlace)]

theorem multiValuedPlace_append {front back : List Column} {column : Column}
    (hMany : column.multiValued = true) (hBack : ∀ other ∈ back, other.multiValued = false) :
    multiValuedPlace (front ++ column :: back) = some front.length := by
  have hNone : (((back.mapIdx fun place other =>
      (place + 1 + front.length, other.multiValued)).reverse.findSome? fun entry =>
        if entry.2 then some entry.1 else none)) = none := by
    rw [List.findSome?_eq_none_iff]
    intro entry hEntry
    obtain ⟨place, hPlace, rfl⟩ := List.mem_mapIdx.mp (List.mem_reverse.mp hEntry)
    simp [hBack _ (List.getElem_mem hPlace)]
  rw [multiValuedPlace, List.mapIdx_append, List.mapIdx_cons, List.reverse_append,
    List.reverse_cons, List.findSome?_append, List.findSome?_append, hNone]
  simp [hMany]

/-- A choice of one element from every column. -/
def Chooses (row : Row) (columns : List Column) (values : List Value) : Prop :=
  List.Forall₂ (fun column value => value ∈ column.elements row) columns values

theorem chooses_of_single (hSingle : ∀ column ∈ columns, column.multiValued = false) :
    Chooses row columns values ↔
      values = columns.map fun column => row.getD column.position .null := by
  unfold Chooses
  induction columns generalizing values with
  | nil => simp
  | cons column columns ih =>
      obtain ⟨hFirst, hRest⟩ := List.forall_mem_cons.mp hSingle
      rw [List.forall₂_cons_left_iff, List.map_cons]
      constructor
      · rintro ⟨value, rest, hValue, hOthers, rfl⟩
        rw [Column.elements, hFirst] at hValue
        rw [(ih hRest).mp hOthers, List.mem_singleton.mp hValue]
      · rintro rfl
        exact ⟨_, _, by simp [Column.elements, hFirst], (ih hRest).mpr rfl, rfl⟩

theorem chooses_append {front back : List Column} {column : Column}
    (hFront : ∀ other ∈ front, other.multiValued = false)
    (hBack : ∀ other ∈ back, other.multiValued = false) :
    Chooses row (front ++ column :: back) values ↔ ∃ element ∈ column.elements row,
      values = (front.map fun column => row.getD column.position .null) ++
        element :: back.map fun column => row.getD column.position .null := by
  induction front generalizing values with
  | nil =>
      simp only [List.nil_append, List.map_nil]
      unfold Chooses
      rw [List.forall₂_cons_left_iff]
      constructor
      · rintro ⟨element, rest, hElement, hOthers, rfl⟩
        exact ⟨element, hElement, by rw [(chooses_of_single hBack).mp hOthers]⟩
      · rintro ⟨element, hElement, rfl⟩
        exact ⟨element, _, hElement, (chooses_of_single hBack).mpr rfl, rfl⟩
  | cons first front ih =>
      obtain ⟨hFirst, hRest⟩ := List.forall_mem_cons.mp hFront
      have hFirstElements : first.elements row = [row.getD first.position .null] := by
        rw [Column.elements, hFirst]
        rfl
      rw [List.cons_append, Chooses, List.forall₂_cons_left_iff]
      constructor
      · rintro ⟨value, rest, hValue, hOthers, rfl⟩
        obtain ⟨element, hElement, rfl⟩ := (ih hRest).mp hOthers
        rw [hFirstElements] at hValue
        exact ⟨element, hElement, by rw [List.mem_singleton.mp hValue]; rfl⟩
      · rintro ⟨element, hElement, rfl⟩
        refine ⟨_, _, ?_, (ih hRest).mpr ⟨element, hElement, rfl⟩, rfl⟩
        rw [hFirstElements]
        exact List.mem_singleton_self _

/-- The value lists of a row in an index without suffixes. -/
theorem mem_keyValues_iff {slot : Slot} (hTuple : slot.definition.isTuple = false)
    (hPositions : slot.positions = columns.map (·.position))
    (hMultiValued : slot.multiValued = multiValuedPlace columns)
    (hOne : columns.countP (·.multiValued) ≤ 1) :
    values ∈ slot.keyValues row ↔ Chooses row columns values := by
  have hColumns : slot.keyColumns row =
      columns.map fun column => row.getD column.position .null := by
    rw [keyColumns, hPositions, List.map_map]
    rfl
  simp only [keyValues, hTuple, hColumns, Bool.false_eq_true, if_false]
  rcases split_of_countP_le_one hOne with hSingle | ⟨front, column, back, rfl, hMany, hFront, hBack⟩
  · rw [hMultiValued, multiValuedPlace_of_single hSingle, chooses_of_single hSingle]
    exact List.mem_singleton
  · rw [hMultiValued, multiValuedPlace_append hMany hBack, chooses_append hFront hBack]
    have hElements : column.elements row = (row.getD column.position .null).contributions := by
      rw [Column.elements, hMany]
      rfl
    rw [hElements]
    simp only [List.map_append, List.map_cons, Value.contributions, List.mem_map]
    refine exists_congr fun element => and_congr ?_ ?_
    · simp
    · rw [List.set_append_right _ _ (by simp), eq_comm]
      simp

/-- The keys of a row are those of its value lists. -/
theorem mem_keysFor {slot : Slot} {keys : KeySet} {key : Key}
    (hKeys : slot.keysFor row = .ok keys) :
    key ∈ keys.toList ↔
      ∃ values ∈ slot.keyValues row, slot.index.layout.makeKey values .exact = .ok key := by
  simp only [keysFor, Except.bind_eq_ok_iff, Except.mapM_eq_ok_iff, Except.pure_eq_ok_iff] at hKeys
  obtain ⟨encoded, hEncoded, rfl⟩ := hKeys
  rw [OrderedSet.mem_ofList]
  constructor
  · exact hEncoded.exists_of_mem_right
  · rintro ⟨values, hValues, hKey⟩
    obtain ⟨other, hOther, hSame⟩ := hEncoded.exists_of_mem_left hValues
    exact Except.ok.inj (hKey.symm.trans hSame) ▸ hOther

/-- Where the value lists of the records fit their key, each has its entry. -/
theorem AgreesWith.mem_entries_iff {slot : Slot} {records : List StoredRecord} {entry : Entry}
    (hAgrees : slot.AgreesWith records)
    (hFits : ∀ record ∈ records, ∀ values ∈ slot.keyValues record.row,
      slot.index.layout.Fits values) :
    entry ∈ slot.index.entries.toList ↔ ∃ record ∈ records, ∃ values ∈ slot.keyValues record.row,
      entry = ⟨⟨slot.index.layout.bytes values⟩, record.bookmark⟩ := by
  rw [hAgrees.mem_iff]
  constructor
  · rintro ⟨record, hRecord, keys, hKeys, hEntry, hBookmark⟩
    obtain ⟨values, hValues, hMake⟩ := (mem_keysFor hKeys).mp hEntry
    rw [KeyLayout.makeKey_of_fits (hFits record hRecord values hValues)] at hMake
    refine ⟨record, hRecord, values, hValues, ?_⟩
    cases entry
    exact congrArg₂ Entry.mk (Except.ok.inj hMake).symm hBookmark
  · rintro ⟨record, hRecord, values, hValues, rfl⟩
    obtain ⟨keys, hKeys⟩ := hAgrees.keyed record hRecord
    have hMake := KeyLayout.makeKey_of_fits (hFits record hRecord values hValues)
    exact ⟨record, hRecord, keys, hKeys, (mem_keysFor hKeys).mpr ⟨values, hValues, hMake⟩, rfl⟩

/-- What the definition of an index fixes of its slot, whatever its entries. -/
structure KeyedBy (slot : Slot) (table : Table) (index : IndexDefinition) (columns : List Column) :
    Prop where
  definition : slot.definition = index
  parts : List.Forall₂ (fun part column => table.column? part.column = some column)
    index.columns columns
  positions : slot.positions = columns.map (·.position)
  multiValued : slot.multiValued = multiValuedPlace columns
  layout : slot.index.layout =
    List.zipWith (fun part column => ⟨column.type, part.direction⟩) index.columns columns

/-- A slot of an index without suffixes, with the keys of the value lists of each record. -/
structure Indexes (slot : Slot) (table : Table) (records : List StoredRecord)
    (index : IndexDefinition) (columns : List Column) : Prop
    extends slot.KeyedBy table index columns where
  mem_keyValues : ∀ row values, values ∈ slot.keyValues row ↔ Chooses row columns values
  fits : ∀ record ∈ records, ∀ values, Chooses record.row columns values →
    slot.index.layout.Fits values
  mem_entries : ∀ entry, entry ∈ slot.index.entries.toList ↔
    ∃ record ∈ records, ∃ values, Chooses record.row columns values ∧
      entry = ⟨⟨slot.index.layout.bytes values⟩, record.bookmark⟩

theorem keyedBy_of_create {table : Table} {index : IndexDefinition} {slot : Slot}
    (hCreate : Slot.create table index = .ok slot.clear) :
    ∃ columns, slot.KeyedBy table index columns := by
  obtain ⟨-, hDefinition, -, -, hLayout, columns, hColumns, hPositions, hMultiValued⟩ :=
    create_eq_ok hCreate
  have hParts := columnsOf_eq_ok hColumns
  exact ⟨columns, hDefinition, hParts, hPositions, hMultiValued,
    KeyLayout.ofParts_eq_ok hParts hLayout⟩

theorem KeyedBy.countP {table : Table} {index : IndexDefinition} {slot : Slot}
    (hKeyed : slot.KeyedBy table index columns) :
    columns.countP (·.multiValued) =
      index.columns.countP (KeyPart.isMultiValued table.columns) := by
  have hColumns := hKeyed.parts
  clear hKeyed
  generalize index.columns = parts at hColumns
  induction hColumns with
  | nil => rfl
  | @cons part column _ _ hColumn _ ih =>
      have hFound : KeyPart.isMultiValued table.columns part = column.multiValued := by
        unfold Table.column? at hColumn
        rw [KeyPart.isMultiValued, hColumn]
        rfl
      rw [List.countP_cons, List.countP_cons, ih, hFound]

theorem KeyedBy.mem_keyValues_iff_chooses {table : Table} {index : IndexDefinition} {slot : Slot}
    (hKeyed : slot.KeyedBy table index columns) (hTable : table.WellFormed)
    (hIndex : index ∈ table.indices) (hTuple : index.isTuple = false) :
    values ∈ slot.keyValues row ↔ Chooses row columns values :=
  mem_keyValues_iff (hKeyed.definition ▸ hTuple) hKeyed.positions hKeyed.multiValued
    (hKeyed.countP ▸ (hTable.proper index hIndex).multiValued)

/-- The columns of a key have the types of their values. -/
theorem KeyedBy.fits_of_chooses {table : Table} {index : IndexDefinition} {slot : Slot}
    {given : Row} (hKeyed : slot.KeyedBy table index columns) (hTable : table.WellFormed)
    (hConform : table.conformRow given = .ok row) (hChooses : Chooses row columns values) :
    slot.index.layout.Fits values := by
  rw [hKeyed.layout]
  have hParts := hKeyed.parts
  clear hKeyed
  generalize index.columns = parts at hParts ⊢
  induction hParts generalizing values with
  | nil =>
      cases hChooses
      trivial
  | cons hColumn _ ih =>
      obtain ⟨value, rest, hValue, hRest, rfl⟩ := List.forall₂_cons_left_iff.mp hChooses
      have hHolds := Table.holds_of_conformRow hTable hConform hColumn
      exact ⟨Column.fits_of_mem_elements hHolds hValue, ih hRest⟩

/-- Without a multi-valued column a row has one key. -/
theorem KeyedBy.eq_of_mem_keys {table : Table} {index : IndexDefinition} {slot : Slot}
    {keys : KeySet} {a b : Key} (hKeyed : slot.KeyedBy table index columns)
    (hTuple : index.isTuple = false) (hNone : columns.countP (·.multiValued) = 0)
    (hKeys : slot.keysFor row = .ok keys) (ha : a ∈ keys.toList) (hb : b ∈ keys.toList) : a = b := by
  have hSingle : ∀ column ∈ columns, column.multiValued = false := by
    simpa using List.countP_eq_zero.mp hNone
  have hMem (values : List Value) := @mem_keyValues_iff columns row values slot
    (hKeyed.definition ▸ hTuple) hKeyed.positions hKeyed.multiValued (by omega)
  obtain ⟨as, has, hKeyA⟩ := (mem_keysFor hKeys).mp ha
  obtain ⟨bs, hbs, hKeyB⟩ := (mem_keysFor hKeys).mp hb
  rw [hMem, chooses_of_single hSingle] at has hbs
  subst has hbs
  exact Except.ok.inj (hKeyA.symm.trans hKeyB)

end Slot

namespace Store

variable {table : Table} {store : Store} {index : IndexDefinition} {slot : Slot}
  {columns : List Column}

/-- The bookmark of a record is the first of its keys in a declared clustering index. -/
theorem Invariant.exists_ownKey {record : StoredRecord} (hStore : Invariant table store)
    (hKey : table.primaryKey?.isSome) (hRecord : record ∈ store.records.toList) :
    ∃ keys, store.clustering.keysFor record.row = .ok keys ∧
      (⟨record.bookmark.bytes⟩ : Key) ∈ keys.toList := by
  have hClustering := hStore.primary hKey record hRecord
  rw [clusteringKey, if_pos (table_of_create hStore.shape ▸ hKey)] at hClustering
  obtain ⟨keys, hKeys, hFirst⟩ := Except.bind_eq_ok_iff.mp hClustering
  refine ⟨keys, hKeys, ?_⟩
  cases hList : keys.toList with
  | nil => simp [hList, Except.throw_eq_ok_iff] at hFirst
  | cons key rest =>
      simp only [hList, Except.pure_eq_ok_iff] at hFirst
      exact hFirst ▸ List.mem_cons_self

/-- A clustering index without suffixes has one key for each record, which is its bookmark. -/
theorem agreesWith_clustering (hTable : table.WellFormed) (hStore : Invariant table store)
    (hIndex : index ∈ table.indices) (hTuple : index.isTuple = false)
    (hPrimary : index.primary = true) (hKeyed : store.clustering.KeyedBy table index columns) :
    store.clustering.AgreesWith store.records.toList := by
  have hKey : table.primaryKey?.isSome :=
    List.find?_isSome.mpr ⟨index, hIndex, hPrimary⟩
  have hNone : columns.countP (·.multiValued) = 0 :=
    hKeyed.countP.trans ((hTable.proper index hIndex).clustering hPrimary)
  refine ⟨fun record hRecord => ?_, fun entry => ?_⟩
  · obtain ⟨keys, hKeys, -⟩ := hStore.exists_ownKey hKey hRecord
    exact ⟨keys, hKeys⟩
  · rw [hStore.clustered]
    constructor
    · rintro ⟨record, hRecord, rfl⟩
      obtain ⟨keys, hKeys, hMem⟩ := hStore.exists_ownKey hKey hRecord
      exact ⟨record, hRecord, keys, hKeys, hMem, rfl⟩
    · rintro ⟨record, hRecord, keys, hKeys, hEntry, hBookmark⟩
      obtain ⟨own, hOwnKeys, hMem⟩ := hStore.exists_ownKey hKey hRecord
      obtain rfl := Except.ok.inj (hKeys.symm.trans hOwnKeys)
      refine ⟨record, hRecord, ?_⟩
      cases entry
      exact congrArg₂ Entry.mk (hKeyed.eq_of_mem_keys hTuple hNone hKeys hEntry hMem) hBookmark

theorem exists_indexes (hTable : table.WellFormed) (hStore : Invariant table store)
    (hIndex : index ∈ table.indices) (hTuple : index.isTuple = false) :
    ∃ slot columns, store.slot (some index.name) = .ok slot ∧
      slot.Indexes table store.records.toList index columns := by
  obtain ⟨slot, hSlot, hCreate, hPlace⟩ := slot_of_index hTable hStore hIndex
  obtain ⟨columns, hKeyed⟩ := Slot.keyedBy_of_create hCreate
  have hAgrees : slot.AgreesWith store.records.toList := by
    cases hPrimary : index.primary with
    | true =>
        obtain rfl : slot = store.clustering := by simpa [hPrimary] using hPlace
        exact agreesWith_clustering hTable hStore hIndex hTuple hPrimary hKeyed
    | false => exact (hStore.secondary slot (by simpa [hPrimary] using hPlace)).toAgreesWith
  have hFits : ∀ record ∈ store.records.toList, ∀ values, Slot.Chooses record.row columns values →
      slot.index.layout.Fits values := by
    intro record hRecord values hChooses
    obtain ⟨given, hConform⟩ := hStore.conformed record hRecord
    exact hKeyed.fits_of_chooses hTable hConform hChooses
  have hValues : ∀ row values, values ∈ slot.keyValues row ↔ Slot.Chooses row columns values := by
    intro row values
    exact hKeyed.mem_keyValues_iff_chooses hTable hIndex hTuple
  refine ⟨slot, columns, hSlot, hKeyed, hValues, hFits, fun entry => ?_⟩
  rw [hAgrees.mem_entries_iff fun record hRecord values hIn =>
    hFits record hRecord values ((hValues _ _).mp hIn)]
  simp only [hValues]

end Store

end IndexedTable

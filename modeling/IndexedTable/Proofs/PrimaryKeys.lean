import IndexedTable.Proofs.StoreChanges
import IndexedTable.Proofs.SuffixKeys

/-! What a primary key tells apart. Over whole columns the key of a row is that of its values, and
two rows have one key exactly when those are equal. Over suffixes it is that of the first suffix
alone, so that different values share a key, and null has none. -/

namespace IndexedTable

/-- The first element is the one that comes after no other. -/
theorem OrderedSet.head?_eq_some_iff {α : Type} {cmp : α → α → Ordering} [Std.OrientedCmp cmp]
    {set : OrderedSet α cmp} {x : α} :
    set.toList.head? = some x ↔ x ∈ set.toList ∧ ∀ y ∈ set.toList, cmp x y ≠ .gt := by
  have hAscending := set.ascending
  cases hList : set.toList with
  | nil => simp
  | cons first rest =>
      obtain ⟨hLess, -⟩ := List.pairwise_cons.mp (hList ▸ hAscending)
      rw [List.head?_cons, Option.some.injEq]
      constructor
      · rintro rfl
        refine ⟨List.mem_cons_self, List.forall_mem_cons.mpr ⟨?_, fun y hy => ?_⟩⟩
        · have hSelf : cmp first first = .eq := Std.ReflCmp.compare_self
          rw [hSelf]
          decide
        · rw [hLess y hy]
          decide
      · rintro ⟨hMem, hFirst⟩
        refine ((List.mem_cons.mp hMem).resolve_right fun hRest => ?_).symm
        have hGreater : cmp x first = .gt :=
          Std.OrientedCmp.gt_iff_lt.mpr (hLess x hRest)
        exact hFirst first List.mem_cons_self hGreater

/-- A number and any other value of its column have one segment exactly when they are equal. -/
theorem Value.keyOrder_eq_iff_equal {type : DataType} {a b : Value} (ha : a.Fits type)
    (hb : b.Fits type) (hNumber : a.isNaN = false) : a.keyOrder b = .eq ↔ a.equal b = true := by
  by_cases hComparable : a.Comparable b
  · rw [(keyOrder_eq_order_iff a b).mpr hComparable, order_eq_iff_equal ha hb]
  · -- Only a not-a-number pattern compares in another way; no number equals it or has its key.
    unfold Comparable at hComparable
    split at hComparable
    · rename_i x y
      cases hNaN : y.isNaN with
      | false => exact absurd (Binary64.comparable_of_not_isNaN hNumber hNaN) hComparable
      | true =>
          have hSwap : compare x.ordinal y.ordinal = (compare y.ordinal x.ordinal).swap :=
            Std.OrientedCmp.eq_swap
          have hNotNaN : x.isNaN = false := hNumber
          rw [keyOrder, hSwap, Binary64.ordinal_isNaN hNaN hNotNaN]
          cases y.negative <;> simp [equal, Binary64.equal, hNaN, hNotNaN]
    · exact absurd trivial hComparable

namespace KeyLayout

/-- Keys of numbers are those of equal values, whatever the other values are. -/
theorem keyOrder_eq_iff_equalItems {layout : KeyLayout} {as bs : List Value} (ha : layout.Fits as)
    (hb : layout.Fits bs) (hLength : as.length = bs.length)
    (hNumbers : ∀ a ∈ as, a.isNaN = false) :
    layout.keyOrder as bs = .eq ↔ Value.equalItems as bs = true := by
  unfold keyOrder
  induction as generalizing layout bs with
  | nil =>
      obtain rfl : bs = [] := List.length_eq_zero_iff.mp hLength.symm
      cases layout <;> simp [lexicographic, Value.equalItems]
  | cons a as ih =>
      obtain ⟨hFirst, hRest⟩ := List.forall_mem_cons.mp hNumbers
      cases bs with
      | nil => cases hLength
      | cons b bs =>
          cases layout with
          | nil => exact ha.elim
          | cons column columns =>
              rw [lexicographic, Ordering.then_eq_eq, Direction.apply_eq_eq_iff,
                Value.keyOrder_eq_iff_equal ha.1 hb.1 hFirst,
                ih ha.2 hb.2 (Nat.succ.inj hLength) hRest, Value.equalItems, Bool.and_eq_true]

theorem bytes_eq_iff {layout : KeyLayout} {as bs : List Value} (ha : layout.Fits as)
    (hb : layout.Fits bs) (hLength : as.length = bs.length) :
    layout.bytes as = layout.bytes bs ↔ layout.keyOrder as bs = .eq := by
  rw [← compare_of_settled (settled?_bytes ha hb hLength), Std.LawfulEqCmp.compare_eq_iff_eq]

end KeyLayout

namespace Value

variable {type : DataType} {a b : Value}

/-- Texts and binary values that neither comes before the other are the same. -/
theorem eq_of_order_eq (hType : type.supportsPartialMatch = true) (ha : a.dataType? = some type)
    (hb : b.dataType? = some type) (hOrder : a.order b = .eq) : a = b := by
  have hEqual := (order_eq_iff_equal (.inr ha) (.inr hb)).mp hOrder
  cases type with
  | text | bytes =>
      cases a <;> cases ha
      cases b <;> cases hb
      simpa [equal] using hEqual
  | _ => cases hType

/-- Keys of one text or binary value each compare as the values do. -/
theorem compare_bytes_singleton {direction : Direction} (hType : type.supportsPartialMatch = true)
    (ha : a.dataType? = some type) (hb : b.dataType? = some type) :
    compare (KeyLayout.bytes [⟨type, direction⟩] [a]) (KeyLayout.bytes [⟨type, direction⟩] [b]) =
      direction.apply (a.order b) := by
  have hOrder : a.keyOrder b = a.order b := by
    cases type with
    | text | bytes =>
        cases a <;> cases ha
        cases b <;> cases hb
        rfl
    | _ => cases hType
  have hSettled := @KeyLayout.settled?_bytes [⟨type, direction⟩] [a] [b] ⟨.inr ha, trivial⟩
    ⟨.inr hb, trivial⟩ rfl
  rw [compare_of_settled hSettled, KeyLayout.keyOrder, KeyLayout.lexicographic, hOrder]
  exact Ordering.then_eq

/-- A value that has suffixes is one of them. -/
theorem mem_suffixes_self {least : Nat} (hType : type.supportsPartialMatch = true)
    (ha : a.dataType? = some type) : a ∈ a.suffixes least := by
  cases type with
  | text | bytes =>
      cases a <;> cases ha
      exact List.mem_cons_self
  | _ => cases hType

end Value

/-- The value of a column in a row. -/
def Table.valueOf (table : Table) (row : Row) (name : String) : Value :=
  ((table.column? name).map fun column => row.getD column.position .null).getD .null

/-- The values of the key columns of an index in a row. -/
def IndexDefinition.valuesIn (index : IndexDefinition) (table : Table) (row : Row) : List Value :=
  index.columns.map fun part => table.valueOf row part.column

/-- A suffix of the value of a column that comes first of all its suffixes in the index. -/
structure IndexDefinition.FirstSuffix (index : IndexDefinition) (part : KeyPart) (value : Value)
    (suffix : Value) : Prop where
  mem : suffix ∈ value.suffixes (max 1 index.minLength)
  first : ∀ other ∈ value.suffixes (max 1 index.minLength),
    part.direction.apply (suffix.order other) ≠ .gt

namespace Slot

variable {table : Table} {slot : Slot} {index : IndexDefinition} {columns : List Column}
  {given row : Row} {values : List Value}

theorem KeyedBy.valuesIn_eq (hKeyed : slot.KeyedBy table index columns) :
    index.valuesIn table row = columns.map fun column => row.getD column.position .null := by
  have hParts := hKeyed.parts
  clear hKeyed
  unfold IndexDefinition.valuesIn
  generalize index.columns = parts at hParts
  induction hParts with
  | nil => rfl
  | cons hColumn _ ih => rw [List.map_cons, List.map_cons, ih, Table.valueOf, hColumn]; rfl

/-- An index over suffixes has one column. -/
theorem KeyedBy.tuple (hKeyed : slot.KeyedBy table index columns)
    (hProper : index.Proper table.columns) (hTuple : index.isTuple = true) :
    ∃ part column, index.columns = [part] ∧ columns = [column] ∧
      table.column? part.column = some column ∧ column.type.supportsPartialMatch = true ∧
      slot.index.layout = [⟨column.type, part.direction⟩] := by
  obtain ⟨part, column, hColumns, hColumn, hType⟩ := hProper.tuple hTuple
  have hParts := hKeyed.parts
  rw [hColumns] at hParts
  obtain ⟨found, rest, hFound, hRest, rfl⟩ := List.forall₂_cons_left_iff.mp hParts
  cases hRest
  obtain rfl := Option.some.inj (hFound.symm.trans hColumn)
  refine ⟨part, found, hColumns, rfl, hColumn, hType, ?_⟩
  rw [hKeyed.layout, hColumns]
  rfl

/-- The value lists of a stored row fit the key of every index. -/
theorem KeyedBy.fits_of_mem_keyValues (hKeyed : slot.KeyedBy table index columns)
    (hTable : table.WellFormed) (hIndex : index ∈ table.indices)
    (hConform : table.conformRow given = .ok row) (hValues : values ∈ slot.keyValues row) :
    slot.index.layout.Fits values := by
  have hProper := hTable.proper index hIndex
  cases hTuple : index.isTuple with
  | false =>
      have hChooses := (hKeyed.mem_keyValues_iff_chooses hTable hIndex hTuple).mp hValues
      exact hKeyed.fits_of_chooses hTable hConform hChooses
  | true =>
      obtain ⟨part, column, -, rfl, hColumn, -, hLayout⟩ := hKeyed.tuple hProper hTuple
      have hHolds := Table.holds_of_conformRow hTable hConform hColumn
      obtain ⟨element, hElement, suffix, hSuffix, rfl⟩ := (mem_keyValues_iff_suffix
        (hKeyed.definition ▸ hTuple) hKeyed.positions hHolds).mp hValues
      rw [hLayout]
      exact ⟨.inr (Value.dataType?_of_mem_suffixes_of_fits
        (Column.fits_of_mem_elements hHolds hElement) hSuffix), trivial⟩

/-- No key of a stored row is refused. -/
theorem KeyedBy.exists_keysFor (hKeyed : slot.KeyedBy table index columns)
    (hTable : table.WellFormed) (hIndex : index ∈ table.indices)
    (hConform : table.conformRow given = .ok row) : ∃ keys, slot.keysFor row = .ok keys := by
  obtain ⟨keys, hKeys⟩ := @Except.exists_mapM_eq_ok _ _ _
    (fun values => slot.index.layout.makeKey values .exact) (slot.keyValues row)
    fun values hValues => ⟨_, KeyLayout.makeKey_of_fits
      (hKeyed.fits_of_mem_keyValues hTable hIndex hConform hValues)⟩
  exact ⟨.ofList keys, Except.bind_eq_ok_iff.mpr ⟨keys, hKeys, rfl⟩⟩

/-- The keys of a stored row are the bytes of its value lists. -/
theorem KeyedBy.mem_keysFor_iff {keys : KeySet} {key : Key}
    (hKeyed : slot.KeyedBy table index columns) (hTable : table.WellFormed)
    (hIndex : index ∈ table.indices) (hConform : table.conformRow given = .ok row)
    (hKeys : slot.keysFor row = .ok keys) :
    key ∈ keys.toList ↔ ∃ values ∈ slot.keyValues row, key = ⟨slot.index.layout.bytes values⟩ := by
  rw [mem_keysFor hKeys]
  refine exists_congr fun values => and_congr_right fun hValues => ?_
  rw [KeyLayout.makeKey_of_fits (hKeyed.fits_of_mem_keyValues hTable hIndex hConform hValues),
    Except.ok.injEq, eq_comm]

/-- Over whole columns the keys of a row are the encodings of the choices among its elements. -/
theorem KeyedBy.mem_keysFor_iff_chooses {keys : KeySet} {key : Key}
    (hKeyed : slot.KeyedBy table index columns) (hTable : table.WellFormed)
    (hIndex : index ∈ table.indices) (hTuple : index.isTuple = false)
    (hConform : table.conformRow given = .ok row) (hKeys : slot.keysFor row = .ok keys) :
    key ∈ keys.toList ↔
      ∃ values, Chooses row columns values ∧ key = ⟨slot.index.layout.bytes values⟩ := by
  simp only [hKeyed.mem_keysFor_iff hTable hIndex hConform hKeys,
    hKeyed.mem_keyValues_iff_chooses hTable hIndex hTuple]

end Slot

namespace Store

variable {table : Table} {store : Store} {index : IndexDefinition} {given row : Row} {key : Key}

/-- Every row that conforms has its keys in the secondary indices. -/
theorem Invariant.exists_secondaryKeys_of_conformRow (hStore : Invariant table store)
    (hTable : table.WellFormed) (hConform : table.conformRow given = .ok row) :
    ∃ keys, store.secondaryKeys row = .ok keys := by
  refine Except.exists_mapM_eq_ok fun slot hSlot => ?_
  obtain ⟨-, -, -, -, hSecondary⟩ := create_eq_ok hStore.shape
  obtain ⟨index, hIndex, hCreate⟩ := hSecondary.exists_of_mem_right (List.mem_map_of_mem hSlot)
  obtain ⟨columns, hKeyed⟩ := Slot.keyedBy_of_create hCreate
  exact hKeyed.exists_keysFor hTable (List.mem_filter.mp hIndex).1 hConform

theorem Invariant.isSome_primaryKey? (hStore : Invariant table store)
    (hKey : table.primaryKey? = some index) : store.table.primaryKey?.isSome := by
  rw [table_of_create hStore.shape, hKey]
  rfl

/-- The clustering key of a row is the first of its keys in the clustering index. -/
theorem clusteringKey_eq {keys : KeySet} (hPrimary : store.table.primaryKey?.isSome)
    (hKeys : store.clustering.keysFor row = .ok keys) :
    store.clusteringKey row = (keys.toList.head?).elim (.error .recordNotFound) .ok := by
  rw [clusteringKey, if_pos hPrimary, hKeys]
  cases hList : keys.toList <;> simp only [bind, Except.bind, hList] <;> rfl

theorem clusteringKey_eq_ok_iff {keys : KeySet} (hPrimary : store.table.primaryKey?.isSome)
    (hKeys : store.clustering.keysFor row = .ok keys) :
    store.clusteringKey row = .ok key ↔
      key ∈ keys.toList ∧ ∀ other ∈ keys.toList, compare key other ≠ .gt := by
  rw [clusteringKey_eq hPrimary hKeys, ← keys.head?_eq_some_iff]
  cases keys.toList.head? <;> simp

/-- A write reports a duplicate key when something is so, and otherwise succeeds. -/
def RefusesIf (outcome : Outcome Store Bookmark) (name : String) (taken : Prop) : Prop :=
  (outcome.1 = .error (.duplicateKey name) ↔ taken) ∧
    (¬taken → ∃ bookmark, outcome.1 = .ok bookmark)

/-- The writes of a row report a duplicate key exactly when a stored record, other than the one to
replace, is like it, and otherwise succeed. -/
structure RefusesOnly (store : Store) (given : Row) (name : String) (like : Row → Prop) : Prop where
  insert : RefusesIf (store.insert given) name (∃ record ∈ store.records.toList, like record.row)
  replace : ∀ old ∈ store.records.toList, RefusesIf (store.replace old.bookmark given) name
    (∃ record ∈ store.records.toList, record.bookmark ≠ old.bookmark ∧ like record.row)

/-- No write of a row succeeds, whatever the records, and none leaves a trace. -/
structure Rejects (store : Store) (given : Row) (e : IndexError) : Prop where
  insert : store.insert given = (.error e, store)
  replace : ∀ old ∈ store.records.toList, store.replace old.bookmark given = (.error e, store)

theorem refusesIf_of_cases {outcome : Outcome Store Bookmark} {name : String} {taken : Prop}
    {bookmark : Bookmark} (hTaken : taken → outcome.1 = .error (.duplicateKey name))
    (hFree : ¬taken → outcome.1 = .ok bookmark) : RefusesIf outcome name taken := by
  refine ⟨⟨fun hError => ?_, hTaken⟩, fun hNot => ⟨bookmark, hFree hNot⟩⟩
  by_contra hNot
  cases hError.symm.trans (hFree hNot)

/-- The bookmark of a stored record is taken from the clustering key of its row. -/
theorem Invariant.clusteringKey_eq_iff (hStore : Invariant table store)
    (hPrimary : table.primaryKey?.isSome) {record : StoredRecord}
    (hRecord : record ∈ store.records.toList) :
    store.clusteringKey record.row = .ok key ↔ record.bookmark = ⟨key.bytes⟩ := by
  rw [hStore.primary hPrimary record hRecord, Except.ok.injEq]
  constructor
  · rintro rfl
    rfl
  · intro hSame
    rw [hSame]

theorem Invariant.contains_iff (hStore : Invariant table store)
    (hPrimary : table.primaryKey?.isSome) : store.contains ⟨key.bytes⟩ = true ↔
      ∃ record ∈ store.records.toList, store.clusteringKey record.row = .ok key := by
  rw [contains_iff_exists]
  exact exists_congr fun record => and_congr_right fun hRecord =>
    (hStore.clusteringKey_eq_iff hPrimary hRecord).symm

section Writes

variable (hStore : Invariant table store) (hTable : table.WellFormed)
  (hPrimary : table.primaryKey?.isSome) (hConform : table.conformRow given = .ok row)

include hStore hTable hPrimary hConform

/-- An insertion is refused exactly when a stored record has the clustering key of the row. -/
theorem Invariant.refusesIf_insert (hKey : store.clusteringKey row = .ok key) :
    RefusesIf (store.insert given) store.clusteringName
      (∃ record ∈ store.records.toList, store.clusteringKey record.row = .ok key) := by
  have hSame := table_of_create hStore.shape
  obtain ⟨keys, hKeys⟩ := hStore.exists_secondaryKeys_of_conformRow hTable hConform
  have hPlace := placeNew_eq (hSame ▸ hConform) hKey hKeys
  rw [← hStore.contains_iff hPrimary]
  refine @refusesIf_of_cases _ _ _ ⟨key.bytes⟩ ?_ ?_
  · intro hTaken
    rw [if_pos hTaken] at hPlace
    simp only [Store.insert, hPlace]
  · intro hFree
    obtain ⟨after, hInsert⟩ := hStore.exists_insert hConform hKey (by simpa using hFree) hKeys
    rw [hInsert]

/-- A replacement is refused exactly when another record has the clustering key of the row. -/
theorem Invariant.refusesIf_replace (hKey : store.clusteringKey row = .ok key)
    {old : StoredRecord} (hOld : old ∈ store.records.toList) :
    RefusesIf (store.replace old.bookmark given) store.clusteringName
      (∃ record ∈ store.records.toList, record.bookmark ≠ old.bookmark ∧
        store.clusteringKey record.row = .ok key) := by
  have hSame := table_of_create hStore.shape
  obtain ⟨keys, hKeys⟩ := hStore.exists_secondaryKeys_of_conformRow hTable hConform
  obtain ⟨oldKeys, hOldKeys⟩ := hStore.exists_secondaryKeys (get?_eq_some_iff.mpr hOld)
  have hOwn : store.keyAgain old.bookmark row = .ok key :=
    (keyAgain_of_some (hSame ▸ hPrimary)).trans hKey
  have hPlace := placeAgain_eq (get?_eq_some_iff.mpr hOld) (hSame ▸ hConform) hOwn hOldKeys hKeys
  have hContains : (key.bytes ≠ old.bookmark.bytes ∧ store.contains ⟨key.bytes⟩ = true) ↔
      ∃ record ∈ store.records.toList, record.bookmark ≠ old.bookmark ∧
        store.clusteringKey record.row = .ok key := by
    rw [hStore.contains_iff hPrimary]
    constructor
    · rintro ⟨hOther, record, hRecord, hKey⟩
      have hBookmark := (hStore.clusteringKey_eq_iff hPrimary hRecord).mp hKey
      exact ⟨record, hRecord, fun hSame => hOther (by rw [← hSame, hBookmark]), hKey⟩
    · rintro ⟨record, hRecord, hOther, hKey⟩
      have hBookmark := (hStore.clusteringKey_eq_iff hPrimary hRecord).mp hKey
      exact ⟨fun hSame => hOther (hBookmark.trans (congrArg Bookmark.mk hSame)), record, hRecord,
        hKey⟩
  rw [← hContains]
  refine @refusesIf_of_cases _ _ _ ⟨key.bytes⟩ ?_ ?_
  · intro hTaken
    rw [if_pos hTaken] at hPlace
    simp only [Store.replace, hPlace]
  · intro hFree
    rw [if_neg hFree] at hPlace
    obtain ⟨after, hAdd, -⟩ := hStore.addRecord_of_placeAgain hPlace
    simp only [Store.replace, hPlace, hAdd]
    rfl

end Writes

/-- Without a key there is no place for a row. -/
theorem rejects_of_clusteringKey {e : IndexError} (hPrimary : store.table.primaryKey?.isSome)
    (hConform : store.table.conformRow given = .ok row)
    (hKey : store.clusteringKey row = .error e) : store.Rejects given e where
  insert := by
    have hPlace : store.placeNew given = .error e := by
      simp only [placeNew, hConform, Except.mapError, bind, Except.bind, hKey]
    rw [Store.insert, hPlace]
  replace old hOld := by
    have hGet : store.get? old.bookmark = some old.row := get?_eq_some_iff.mpr hOld
    have hPlace : store.placeAgain old.bookmark given = .error e := by
      simp only [placeAgain, hGet, hConform, Except.mapError, bind, Except.bind, hPrimary, hKey,
        if_true]
    rw [Store.replace, hPlace]

/-- A row is refused where a stored row has its clustering key, however this is recognised. -/
theorem Invariant.refusesOnly (hStore : Invariant table store) (hTable : table.WellFormed)
    (hIndex : table.primaryKey? = some index) (hConform : table.conformRow given = .ok row)
    (hKey : store.clusteringKey row = .ok key) {like : Row → Prop}
    (hLike : ∀ other, (∃ given, table.conformRow given = .ok other) →
      (store.clusteringKey other = .ok key ↔ like other)) :
    store.RefusesOnly given index.name like := by
  have hPrimary : table.primaryKey?.isSome := by rw [hIndex]; rfl
  have hName : store.clusteringName = index.name := by
    rw [clusteringName_of_create hStore, hIndex]
    rfl
  have hStored : ∀ record ∈ store.records.toList,
      (store.clusteringKey record.row = .ok key ↔ like record.row) :=
    fun record hRecord => hLike record.row (hStore.conformed record hRecord)
  refine ⟨?_, fun old hOld => ?_⟩
  · have hInsert := hStore.refusesIf_insert hTable hPrimary hConform hKey
    have hSame : (∃ record ∈ store.records.toList, store.clusteringKey record.row = .ok key) ↔
        ∃ record ∈ store.records.toList, like record.row :=
      exists_congr fun record => and_congr_right fun hRecord => hStored record hRecord
    rwa [hName, hSame] at hInsert
  · have hReplace := hStore.refusesIf_replace hTable hPrimary hConform hKey hOld
    have hSame : (∃ record ∈ store.records.toList, record.bookmark ≠ old.bookmark ∧
          store.clusteringKey record.row = .ok key) ↔
        ∃ record ∈ store.records.toList, record.bookmark ≠ old.bookmark ∧ like record.row :=
      exists_congr fun record => and_congr_right fun hRecord =>
        and_congr_right fun _ => hStored record hRecord
    rwa [hName, hSame] at hReplace

/-- The clustering index of a store holds the suffixes of one column of text or binary values. -/
structure ClusteredBySuffixes (store : Store) (index : IndexDefinition) (part : KeyPart)
    (type : DataType) : Prop where
  columns : index.columns = [part]
  primary : store.table.primaryKey?.isSome
  partialMatch : type.supportsPartialMatch = true
  layout : store.clustering.index.layout = [⟨type, part.direction⟩]
  fits {given row : Row} : store.table.conformRow given = .ok row →
    (store.table.valueOf row part.column).Fits type
  keys {given row : Row} : store.table.conformRow given = .ok row →
    ∃ keys, store.clustering.keysFor row = .ok keys ∧ ∀ key, key ∈ keys.toList ↔
      ∃ suffix ∈ (store.table.valueOf row part.column).suffixes (max 1 index.minLength),
        key = ⟨store.clustering.index.layout.bytes [suffix]⟩

namespace ClusteredBySuffixes

variable {part : KeyPart} {type : DataType} (hClustered : ClusteredBySuffixes store index part type)
  (hConform : store.table.conformRow given = .ok row)

include hClustered hConform

/-- A row has the key of the first suffix of its value. -/
theorem clusteringKey_eq_iff_firstSuffix {suffix : Value} (hSuffix : suffix.dataType? = some type) :
    store.clusteringKey row = .ok ⟨store.clustering.index.layout.bytes [suffix]⟩ ↔
      index.FirstSuffix part (store.table.valueOf row part.column) suffix := by
  obtain ⟨keys, hKeys, hMem⟩ := hClustered.keys hConform
  have hCompare {other : Value}
      (hOther : other ∈ (store.table.valueOf row part.column).suffixes (max 1 index.minLength)) :
      compare (store.clustering.index.layout.bytes [suffix])
          (store.clustering.index.layout.bytes [other]) =
        part.direction.apply (suffix.order other) := by
    rw [hClustered.layout]
    exact Value.compare_bytes_singleton hClustered.partialMatch hSuffix
      (Value.dataType?_of_mem_suffixes_of_fits (hClustered.fits hConform) hOther)
  rw [clusteringKey_eq_ok_iff hClustered.primary hKeys, hMem]
  constructor
  · rintro ⟨⟨same, hSame, hBytes⟩, hFirst⟩
    have hOrder : suffix.order same = .eq := by
      rw [← @Direction.apply_eq_eq_iff part.direction, ← hCompare hSame, Key.mk.inj hBytes]
      exact Std.ReflCmp.compare_self
    obtain rfl := Value.eq_of_order_eq hClustered.partialMatch hSuffix
      (Value.dataType?_of_mem_suffixes_of_fits (hClustered.fits hConform) hSame) hOrder
    refine ⟨hSame, fun other hOther => ?_⟩
    rw [← hCompare hOther]
    exact hFirst _ ((hMem _).mpr ⟨other, hOther, rfl⟩)
  · rintro ⟨hSame, hFirst⟩
    refine ⟨⟨suffix, hSame, rfl⟩, fun key hKey => ?_⟩
    obtain ⟨other, hOther, rfl⟩ := (hMem key).mp hKey
    have hNotGreater := hFirst other hOther
    rw [← hCompare hOther] at hNotGreater
    exact hNotGreater

theorem clusteringKey_of_null (hNull : store.table.valueOf row part.column = .null) :
    store.clusteringKey row = .error .recordNotFound := by
  obtain ⟨keys, hKeys, hMem⟩ := hClustered.keys hConform
  have hNone : keys.toList = [] := by
    refine List.eq_nil_iff_forall_not_mem.mpr fun key hKey => ?_
    obtain ⟨suffix, hSuffix, -⟩ := (hMem key).mp hKey
    rw [hNull] at hSuffix
    cases hSuffix
  rw [clusteringKey_eq hClustered.primary hKeys, hNone]
  rfl

theorem exists_firstSuffix (hValue : store.table.valueOf row part.column ≠ .null) :
    ∃ suffix, suffix.dataType? = some type ∧
      index.FirstSuffix part (store.table.valueOf row part.column) suffix := by
  obtain ⟨keys, hKeys, hMem⟩ := hClustered.keys hConform
  have hType := (hClustered.fits hConform).resolve_left hValue
  have hWhole := (hMem _).mpr ⟨_, Value.mem_suffixes_self hClustered.partialMatch hType, rfl⟩
  cases hHead : keys.toList.head? with
  | none => simp [List.head?_eq_none_iff.mp hHead] at hWhole
  | some key =>
      obtain ⟨suffix, hSuffix, rfl⟩ := (hMem key).mp (List.mem_of_mem_head? hHead)
      have hSuffixType := Value.dataType?_of_mem_suffixes_of_fits (hClustered.fits hConform) hSuffix
      refine ⟨suffix, hSuffixType,
        (hClustered.clusteringKey_eq_iff_firstSuffix hConform hSuffixType).mp ?_⟩
      rw [clusteringKey_eq hClustered.primary hKeys, hHead]
      rfl

end ClusteredBySuffixes

section Clustering

variable (hStore : Invariant table store) (hTable : table.WellFormed)
  (hKey : table.primaryKey? = some index)

include hStore hTable hKey

/-- No column of a primary key is multi-valued. -/
theorem Invariant.exists_keyedBy_clustering : ∃ columns,
    store.clustering.KeyedBy table index columns ∧
      ∀ column ∈ columns, column.multiValued = false := by
  have hProper := hTable.proper index (List.mem_of_find?_eq_some hKey)
  obtain ⟨columns, hKeyed⟩ := Slot.keyedBy_of_create (clear_clustering_of_create hStore hKey)
  have hNone : columns.countP (·.multiValued) = 0 :=
    hKeyed.countP.trans (hProper.clustering (List.find?_some hKey))
  exact ⟨columns, hKeyed, by simpa using List.countP_eq_zero.mp hNone⟩

/-- Over whole columns, a row has the key of its values. -/
theorem Invariant.clusteringKey_of_standard (hStandard : index.isTuple = false)
    (hConform : table.conformRow given = .ok row) :
    store.clustering.index.layout.Fits (index.valuesIn table row) ∧
      store.clusteringKey row =
        .ok ⟨store.clustering.index.layout.bytes (index.valuesIn table row)⟩ := by
  have hIndex := List.mem_of_find?_eq_some hKey
  obtain ⟨columns, hKeyed, hSingle⟩ := hStore.exists_keyedBy_clustering hTable hKey
  have hChooses (values : List Value) : Slot.Chooses row columns values ↔
      values = index.valuesIn table row := by
    rw [Slot.chooses_of_single hSingle, hKeyed.valuesIn_eq]
  obtain ⟨keys, hKeys⟩ := hKeyed.exists_keysFor hTable hIndex hConform
  have hMem (key : Key) : key ∈ keys.toList ↔
      key = ⟨store.clustering.index.layout.bytes (index.valuesIn table row)⟩ := by
    rw [hKeyed.mem_keysFor_iff_chooses hTable hIndex hStandard hConform hKeys]
    simp only [hChooses, exists_eq_left]
  refine ⟨hKeyed.fits_of_chooses hTable hConform ((hChooses _).mpr rfl), ?_⟩
  refine (clusteringKey_eq_ok_iff (hStore.isSome_primaryKey? hKey) hKeys).mpr
    ⟨(hMem _).mpr rfl, fun other hOther => ?_⟩
  rw [(hMem other).mp hOther]
  simp

/-- Over whole columns, two rows have one key exactly when their values are equal. -/
theorem Invariant.clusteringKey_eq_iff_equalItems {other : Row} (hStandard : index.isTuple = false)
    (hConform : table.conformRow given = .ok row)
    (hNumbers : ∀ value ∈ index.valuesIn table row, value.isNaN = false)
    (hOther : ∃ given, table.conformRow given = .ok other) :
    store.clusteringKey other =
        .ok ⟨store.clustering.index.layout.bytes (index.valuesIn table row)⟩ ↔
      Value.equalItems (index.valuesIn table row) (index.valuesIn table other) = true := by
  obtain ⟨otherGiven, hOtherConform⟩ := hOther
  have hLength : (index.valuesIn table row).length = (index.valuesIn table other).length := by
    rw [IndexDefinition.valuesIn, IndexDefinition.valuesIn, List.length_map, List.length_map]
  obtain ⟨hFits, -⟩ := hStore.clusteringKey_of_standard hTable hKey hStandard hConform
  obtain ⟨hOtherFits, hOtherKey⟩ :=
    hStore.clusteringKey_of_standard hTable hKey hStandard hOtherConform
  rw [hOtherKey, Except.ok.injEq, Key.mk.injEq, eq_comm,
    KeyLayout.bytes_eq_iff hFits hOtherFits hLength,
    KeyLayout.keyOrder_eq_iff_equalItems hFits hOtherFits hLength hNumbers]

/-- A primary key over suffixes gives each row the keys of the suffixes of one value. -/
theorem Invariant.clusteredBySuffixes (hTuple : index.isTuple = true) :
    ∃ part type, ClusteredBySuffixes store index part type := by
  have hIndex := List.mem_of_find?_eq_some hKey
  have hSame := table_of_create hStore.shape
  obtain ⟨columns, hKeyed, hSingle⟩ := hStore.exists_keyedBy_clustering hTable hKey
  obtain ⟨part, column, hColumns, rfl, hColumn, hType, hLayout⟩ :=
    hKeyed.tuple (hTable.proper index hIndex) hTuple
  have hElements {row : Row} : column.elements row = [table.valueOf row part.column] := by
    rw [Table.valueOf, hColumn, Column.elements, hSingle column List.mem_cons_self]
    rfl
  refine ⟨part, column.type, hColumns, hStore.isSome_primaryKey? hKey, hType, hLayout, ?_, ?_⟩
  · intro given row hConform
    rw [hSame] at hConform ⊢
    have hHolds := Table.holds_of_conformRow hTable hConform hColumn
    exact Column.fits_of_mem_elements hHolds (by simp [hElements])
  · intro given row hConform
    rw [hSame] at hConform ⊢
    have hHolds := Table.holds_of_conformRow hTable hConform hColumn
    obtain ⟨keys, hKeys⟩ := hKeyed.exists_keysFor hTable hIndex hConform
    refine ⟨keys, hKeys, fun key => ?_⟩
    rw [hKeyed.mem_keysFor_iff hTable hIndex hConform hKeys]
    simp only [Slot.mem_keyValues_iff_suffix (hKeyed.definition ▸ hTuple) hKeyed.positions hHolds,
      hElements, List.mem_singleton, exists_eq_left, hKeyed.definition]
    constructor
    · rintro ⟨_, ⟨suffix, hSuffix, rfl⟩, hBytes⟩
      exact ⟨suffix, hSuffix, hBytes⟩
    · rintro ⟨suffix, hSuffix, hBytes⟩
      exact ⟨[suffix], ⟨suffix, hSuffix, rfl⟩, hBytes⟩

end Clustering

end Store

/-- The primary key identifies the records. Over whole columns a row is refused as a duplicate
exactly when a stored record has equal values there; only the numbers of the row itself matter. Over
suffixes the first suffix of the value stands for it: the row is refused exactly when a stored
record has that one first too, whatever the whole values are, and a row without a value is never
stored. -/
theorem Store.primaryKey_identifies {table : Table} {name : String} {steps : List Declaration}
    {store : Store} {key : IndexDefinition} {given row : Row}
    (hDeclare : Table.declare name steps = .ok table) (hKey : table.primaryKey? = some key)
    (hReachable : Reachable table store) (hConform : table.conformRow given = .ok row) :
    (key.isTuple = false → (∀ value ∈ key.valuesIn table row, value.isNaN = false) →
      store.RefusesOnly given key.name fun other =>
        Value.equalItems (key.valuesIn table row) (key.valuesIn table other) = true) ∧
    (key.isTuple = true → ∃ part, key.columns = [part] ∧
      (table.valueOf row part.column = .null → store.Rejects given .recordNotFound) ∧
      (table.valueOf row part.column ≠ .null →
        ∃ suffix, key.FirstSuffix part (table.valueOf row part.column) suffix ∧
          store.RefusesOnly given key.name fun other =>
            key.FirstSuffix part (table.valueOf other part.column) suffix)) := by
  have hTable := Table.wellFormed_of_declare hDeclare
  have hStore := hReachable.invariant
  refine ⟨fun hStandard hNumbers => ?_, fun hTuple => ?_⟩
  · obtain ⟨-, hOwn⟩ := hStore.clusteringKey_of_standard hTable hKey hStandard hConform
    refine hStore.refusesOnly hTable hKey hConform hOwn fun other hOther => ?_
    exact hStore.clusteringKey_eq_iff_equalItems hTable hKey hStandard hConform hNumbers hOther
  · obtain rfl := table_of_create hStore.shape
    obtain ⟨part, type, hClustered⟩ := hStore.clusteredBySuffixes hTable hKey hTuple
    refine ⟨part, hClustered.columns, fun hNull => ?_, fun hValue => ?_⟩
    · exact rejects_of_clusteringKey hClustered.primary hConform
        (hClustered.clusteringKey_of_null hConform hNull)
    · obtain ⟨suffix, hType, hFirst⟩ := hClustered.exists_firstSuffix hConform hValue
      have hOwn := (hClustered.clusteringKey_eq_iff_firstSuffix hConform hType).mpr hFirst
      refine ⟨suffix, hFirst, hStore.refusesOnly hTable hKey hConform hOwn fun other hOther => ?_⟩
      obtain ⟨otherGiven, hOtherConform⟩ := hOther
      exact hClustered.clusteringKey_eq_iff_firstSuffix hOtherConform hType

/-- A number that equals a stored one in other bits, over a whole column. Over suffixes, two
different values that come to one first suffix, and no value. -/
theorem Store.primaryKey_identifies_of_zero_and_suffix :
    let readings : Table :=
      { name := "readings"
        columns := [⟨"value", .float64, false, false, 0⟩]
        indices := [⟨"pkReadings", "readings", [⟨"value", .ascending⟩], true, .standard, 1⟩] }
    let names : Table :=
      { name := "names"
        columns := [⟨"name", .bytes, true, false, 0⟩]
        indices := [⟨"pkNames", "names", [⟨"name", .ascending⟩], true, .tuple, 1⟩] }
    ∃ first second, create readings = .ok first ∧ create names = .ok second ∧
      ((first.apply (.insert [.float64 ⟨0⟩])).insert [.float64 ⟨9223372036854775808⟩]).1 =
        .error (.duplicateKey "pkReadings") ∧
      ((second.apply (.insert [.bytes [1]])).insert [.bytes [2, 1]]).1 =
        .error (.duplicateKey "pkNames") ∧
      ((second.apply (.insert [.bytes [1]])).insert [.null]).1 = .error .recordNotFound := by
  intro readings names
  have hReadings : Table.declare "readings" [.column "value" .float64, .primaryKey ["value"]] =
      .ok readings := rfl
  have hNames : Table.declare "names" [.column "name" .bytes,
      .definition ⟨"pkNames", "", [⟨"name", .ascending⟩], true, .tuple, 1⟩] = .ok names := rfl
  obtain ⟨first, hFirst, hZero⟩ : ∃ first, create readings = .ok first ∧
      (first.apply (.insert [.float64 ⟨0⟩])).records.toList =
        [⟨⟨[2, 128, 0, 0, 0, 0, 0, 0, 0]⟩, [.float64 ⟨0⟩]⟩] := ⟨_, rfl, rfl⟩
  obtain ⟨second, hSecond, hOne⟩ : ∃ second, create names = .ok second ∧
      (second.apply (.insert [.bytes [1]])).records.toList =
        [⟨⟨[2, 1, 0, 0]⟩, [.bytes [1]]⟩] := ⟨_, rfl, rfl⟩
  refine ⟨first, second, hFirst, hSecond, ?_, ?_, ?_⟩
  · have hRow : readings.conformRow [.float64 ⟨9223372036854775808⟩] =
        .ok [.float64 ⟨9223372036854775808⟩] := rfl
    obtain ⟨hWhole, -⟩ :=
      primaryKey_identifies hReadings rfl ((Reachable.created hFirst).changed _) hRow
    refine (hWhole rfl (by decide +kernel)).insert.1.mpr ⟨_, hZero ▸ List.mem_singleton_self _, ?_⟩
    decide +kernel
  · have hRow : names.conformRow [.bytes [2, 1]] = .ok [.bytes [2, 1]] := rfl
    obtain ⟨-, hSuffixes⟩ :=
      primaryKey_identifies hNames rfl ((Reachable.created hSecond).changed _) hRow
    obtain ⟨part, hColumns, -, hValue⟩ := hSuffixes rfl
    obtain rfl : ⟨"name", .ascending⟩ = part := List.singleton_inj.mp hColumns
    obtain ⟨suffix, hSuffix, hRefuses⟩ := hValue (by decide +kernel)
    have hSame : suffix = .bytes [1] := by
      have hMem : suffix ∈ [Value.bytes [2, 1], .bytes [1]] := hSuffix.mem
      rcases List.mem_pair.mp hMem with rfl | hLast
      · exact absurd (by decide +kernel) (hSuffix.first (.bytes [1]) (.tail _ (.head _)))
      · exact hLast
    refine hRefuses.insert.1.mpr ⟨_, hOne ▸ List.mem_singleton_self _, ?_⟩
    rw [hSame]
    exact ⟨.head _, by decide +kernel⟩
  · have hRow : names.conformRow [.null] = .ok [.null] := rfl
    obtain ⟨-, hSuffixes⟩ :=
      primaryKey_identifies hNames rfl ((Reachable.created hSecond).changed _) hRow
    obtain ⟨part, hColumns, hNone, -⟩ := hSuffixes rfl
    obtain rfl : ⟨"name", .ascending⟩ = part := List.singleton_inj.mp hColumns
    rw [(hNone rfl).insert]

end IndexedTable

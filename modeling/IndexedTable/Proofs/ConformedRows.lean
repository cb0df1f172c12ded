import IndexedTable.Proofs.PrimaryKeys
import Mathlib.Data.List.Dedup

/-! Rows that conform. What a table stores of a row is well typed, is stored again as it is, and has
its keys in every index: acceptance by the columns is all that the keys ask for. A row has as many
keys in an index without suffixes as its elements have different segments. -/

namespace IndexedTable

namespace Column

/-- A value that the column stores as it is: one of its type, or null where the column accepts it;
a list of such values or null, for a multi-valued column. -/
structure WellTyped (column : Column) (value : Value) : Prop where
  holds : column.Holds value
  nullable : value = .null → column.nullable = true

variable {column : Column} {given value : Value}

theorem conformScalar_null (hConform : column.conformScalar given = .ok .null) :
    column.nullable = true ∨ column.multiValued = true := by
  unfold conformScalar at hConform
  split at hConform
  · cases hConform
  · rename_i hAccepted
    cases hCoerce : given.coerce? column.type with
    | none => simp [hCoerce] at hConform
    | some coerced =>
        rw [hCoerce] at hConform
        obtain rfl : coerced = .null := Except.ok.inj hConform
        have hNull : given = .null := by
          rcases Value.coerce?_cases hCoerce with ⟨hSame, -⟩ | ⟨hType, -⟩
          · exact hSame.symm
          · cases hType
        simpa [hNull, Value.isNull, Decidable.or_iff_not_imp_left] using hAccepted

theorem wellTyped_of_conform (hConform : column.conform given = .ok value) :
    column.WellTyped value := by
  have hHolds := holds_of_conform hConform
  refine ⟨hHolds, ?_⟩
  rintro rfl
  cases hMany : column.multiValued with
  | false =>
      have hScalar : column.conformScalar given = .ok .null := by
        simpa [conform, hMany] using hConform
      exact (conformScalar_null hScalar).resolve_right (by simp [hMany])
  | true =>
      rw [Holds, if_pos hMany] at hHolds
      obtain ⟨items, hItems, -⟩ := hHolds
      cases hItems

theorem conformScalar_of_fits (hFits : value.Fits column.type)
    (hNull : value = .null → column.nullable = true ∨ column.multiValued = true) :
    column.conformScalar value = .ok value := by
  have hAccepted : (value.isNull && !column.nullable && !column.multiValued) = false := by
    cases value with
    | null => rcases hNull rfl with hNullable | hMany <;> simp [*]
    | _ => rfl
  rw [conformScalar, hAccepted, if_neg Bool.false_ne_true, Value.coerce?_of_fits hFits]

theorem conformItems_of_fits {items : List Value} (hMany : column.multiValued = true)
    (hFits : ∀ item ∈ items, item.Fits column.type) :
    column.conformItems items = .ok items := by
  induction items with
  | nil => rfl
  | cons item items ih =>
      obtain ⟨hFirst, hRest⟩ := List.forall_mem_cons.mp hFits
      rw [conformItems, conformScalar_of_fits hFirst fun _ => .inr hMany, ih hRest]
      rfl

/-- A value of the right form is stored as it is. -/
theorem conform_of_wellTyped (hTyped : column.WellTyped value) :
    column.conform value = .ok value := by
  have hHolds := hTyped.holds
  unfold Holds at hHolds
  unfold conform
  cases hMany : column.multiValued with
  | false =>
      simp only [hMany, Bool.false_eq_true, if_false] at hHolds ⊢
      exact conformScalar_of_fits hHolds fun hNull => .inl (hTyped.nullable hNull)
  | true =>
      simp only [hMany, if_true] at hHolds ⊢
      obtain ⟨items, rfl, hItems⟩ := hHolds
      exact Except.map_eq_ok_iff.mpr ⟨items, conformItems_of_fits hMany hItems, rfl⟩

end Column

namespace Table

variable {table : Table} {row given : Row}

theorem conformValues_of_wellTyped {columns : List Column} {values : List Value}
    (hTyped : List.Forall₂ Column.WellTyped columns values) :
    conformValues columns values = .ok values := by
  induction hTyped with
  | nil => rfl
  | cons hFirst _ ih =>
      rw [conformValues, Column.conform_of_wellTyped hFirst, ih]
      rfl

/-- A row is stored as it is exactly when it is well typed. -/
theorem conformRow_eq_self_iff :
    table.conformRow row = .ok row ↔ List.Forall₂ Column.WellTyped table.columns row := by
  constructor
  · exact forall₂_of_conformRow fun _ _ _ => Column.wellTyped_of_conform
  · intro hTyped
    rw [conformRow, if_neg (not_not.mpr hTyped.length_eq.symm), conformValues_of_wellTyped hTyped]

/-- What was stored once is stored again as it is. -/
theorem conformRow_idem (hConform : table.conformRow given = .ok row) :
    table.conformRow row = .ok row :=
  conformRow_eq_self_iff.mpr
    (forall₂_of_conformRow (fun _ _ _ => Column.wellTyped_of_conform) hConform)

end Table

/-- A set of the images of some elements has as many elements as there are different ones. -/
theorem OrderedSet.size_eq_length_dedup {α β : Type} {cmp : α → α → Ordering} [Std.ReflCmp cmp]
    [DecidableEq β] {set : OrderedSet α cmp} {f : β → α} {xs : List β}
    (hInjective : Function.Injective f) (hMem : ∀ z, z ∈ set.toList ↔ ∃ x ∈ xs, z = f x) :
    set.size = xs.dedup.length := by
  have hNodup : (xs.dedup.map f).Nodup := xs.nodup_dedup.map hInjective
  have hPerm : set.toList.Perm (xs.dedup.map f) := by
    refine (List.perm_ext_iff_of_nodup set.nodup hNodup).mpr fun z => ?_
    simp only [hMem, List.mem_map, List.mem_dedup, eq_comm]
  rw [size, hPerm.length_eq, List.length_map]

namespace KeyLayout

theorem ofParts_of_declared {table : Table} {parts : List KeyPart}
    (hDeclared : ∀ part ∈ parts, (table.column? part.column).isSome) :
    ∃ layout, ofParts table parts = .ok layout := by
  induction parts with
  | nil => exact ⟨[], rfl⟩
  | cons part parts ih =>
      obtain ⟨hFirst, hRest⟩ := List.forall_mem_cons.mp hDeclared
      obtain ⟨column, hColumn⟩ := Option.isSome_iff_exists.mp hFirst
      obtain ⟨layout, hLayout⟩ := ih hRest
      exact ⟨_, by rw [ofParts, hColumn, hLayout]; rfl⟩

end KeyLayout

namespace Slot

variable {table : Table} {slot : Slot} {index : IndexDefinition} {columns : List Column}
  {given row : Row} {keys : KeySet}

theorem columnsOf_of_declared {parts : List KeyPart}
    (hDeclared : ∀ part ∈ parts, (table.column? part.column).isSome) :
    ∃ columns, columnsOf table parts = .ok columns := by
  induction parts with
  | nil => exact ⟨[], rfl⟩
  | cons part parts ih =>
      obtain ⟨hFirst, hRest⟩ := List.forall_mem_cons.mp hDeclared
      obtain ⟨column, hColumn⟩ := Option.isSome_iff_exists.mp hFirst
      obtain ⟨columns, hColumns⟩ := ih hRest
      exact ⟨_, by rw [columnsOf, hColumn, hColumns]; rfl⟩

/-- Every declared index can be given its place in a store. -/
theorem exists_create (hTable : table.WellFormed) (hIndex : index ∈ table.indices) :
    ∃ slot, Slot.create table index = .ok slot := by
  have hDeclared := (hTable.proper index hIndex).declared
  obtain ⟨layout, hLayout⟩ := KeyLayout.ofParts_of_declared hDeclared
  obtain ⟨columns, hColumns⟩ := columnsOf_of_declared hDeclared
  exact ⟨_, by rw [create, hLayout, hColumns]; rfl⟩

/-- In an index over single-valued columns a row has one key. -/
theorem KeyedBy.size_of_single (hKeyed : slot.KeyedBy table index columns)
    (hTable : table.WellFormed) (hIndex : index ∈ table.indices)
    (hTuple : index.isTuple = false) (hConform : table.conformRow given = .ok row)
    (hKeys : slot.keysFor row = .ok keys)
    (hSingle : ∀ column ∈ columns, column.multiValued = false) : keys.size = 1 := by
  let values := columns.map fun column => row.getD column.position .null
  have hSize : keys.size = [slot.index.layout.bytes values].dedup.length := by
    refine OrderedSet.size_eq_length_dedup (f := Key.mk)
      (fun _ _ hSame => congrArg Key.bytes hSame) fun key => ?_
    simp only [hKeyed.mem_keysFor_iff_chooses hTable hIndex hTuple hConform hKeys,
      chooses_of_single hSingle, exists_eq_left, List.mem_singleton, values]
  exact hSize

/-- In an index with a multi-valued column a row has one key for each different segment among the
elements of that column. The other values do not tell its keys apart. -/
theorem KeyedBy.size_of_elements {front back : List Column} {column : Column} {part : KeyPart}
    (hKeyed : slot.KeyedBy table index columns) (hTable : table.WellFormed)
    (hIndex : index ∈ table.indices) (hTuple : index.isTuple = false)
    (hConform : table.conformRow given = .ok row) (hKeys : slot.keysFor row = .ok keys)
    (hColumns : columns = front ++ column :: back)
    (hFront : ∀ other ∈ front, other.multiValued = false)
    (hBack : ∀ other ∈ back, other.multiValued = false)
    (hPart : index.columns[front.length]? = some part) :
    keys.size = ((column.elements row).map
      (KeyColumn.segment ⟨column.type, part.direction⟩ false)).dedup.length := by
  subst hColumns
  let before := front.map fun column => row.getD column.position .null
  let after := back.map fun column => row.getD column.position .null
  have hColumn : slot.index.layout[front.length]? = some ⟨column.type, part.direction⟩ := by
    rw [hKeyed.layout, List.getElem?_zipWith, hPart]
    simp
  obtain ⟨hWidth, hAt⟩ := List.getElem?_eq_some_iff.mp hColumn
  have hLength : before.length = front.length := List.length_map _
  have hBytes (element : Value) : slot.index.layout.bytes (before ++ element :: after) =
      slot.index.layout.bytes before ++
        (KeyColumn.segment ⟨column.type, part.direction⟩ false element ++
          KeyLayout.bytes (slot.index.layout.drop (front.length + 1)) after) := by
    rw [KeyLayout.bytes_append _ (hLength ▸ Nat.le_of_lt hWidth), hLength,
      List.drop_eq_getElem_cons hWidth, hAt]
    rfl
  -- The key is what stands before the segment of the element, the segment and what stands after.
  refine OrderedSet.size_eq_length_dedup (f := fun segment => ⟨slot.index.layout.bytes before ++
    (segment ++ KeyLayout.bytes (slot.index.layout.drop (front.length + 1)) after)⟩) ?_ ?_
  · intro s t hSame
    exact List.append_cancel_right (List.append_cancel_left (congrArg Key.bytes hSame))
  · intro key
    simp only [hKeyed.mem_keysFor_iff_chooses hTable hIndex hTuple hConform hKeys,
      chooses_append hFront hBack, List.mem_map]
    constructor
    · rintro ⟨_, ⟨element, hElement, rfl⟩, rfl⟩
      exact ⟨_, ⟨element, hElement, rfl⟩, congrArg Key.mk (hBytes element)⟩
    · rintro ⟨_, ⟨element, hElement, rfl⟩, rfl⟩
      exact ⟨_, ⟨element, hElement, rfl⟩, congrArg Key.mk (hBytes element).symm⟩

end Slot

/-- The number of keys that a stored row has in an index without suffixes: one over single-valued
columns; with a multi-valued column one for each different segment of its elements, or one if it has
none. -/
structure IndexDefinition.CountsKeys (index : IndexDefinition) (table : Table) (row : Row)
    (keys : KeySet) : Prop where
  single : (∀ part ∈ index.columns, part.isMultiValued table.columns = false) → keys.size = 1
  multiple : ∀ part ∈ index.columns, ∀ column, table.column? part.column = some column →
    column.multiValued = true → ∃ items segments, table.valueOf row part.column = .list items ∧
      items.mapM (KeyColumn.encode ⟨column.type, part.direction⟩ false) = .ok segments ∧
      keys.size = if items.isEmpty then 1 else segments.dedup.length

namespace Slot

variable {table : Table} {slot : Slot} {index : IndexDefinition} {columns : List Column}
  {given row : Row} {keys : KeySet}

/-- The multi-valued column of an index stands alone in its key. -/
theorem KeyedBy.split_of_multiValued {part : KeyPart} {column : Column}
    (hKeyed : slot.KeyedBy table index columns) (hTable : table.WellFormed)
    (hIndex : index ∈ table.indices) (hPart : part ∈ index.columns)
    (hColumn : table.column? part.column = some column) (hMany : column.multiValued = true) :
    ∃ front back, columns = front ++ column :: back ∧ index.columns[front.length]? = some part ∧
      (∀ other ∈ front, other.multiValued = false) ∧
      ∀ other ∈ back, other.multiValued = false := by
  obtain ⟨place, hPlace, hGet⟩ := List.getElem_of_mem hPart
  obtain ⟨hLength, hAt⟩ := List.forall₂_iff_get.mp hKeyed.parts
  have hWidth : place < columns.length := hLength ▸ hPlace
  have hFound : columns[place] = column := by
    have hSame := hAt place hPlace hWidth
    simp only [List.get_eq_getElem, hGet, hColumn, Option.some.injEq] at hSame
    exact hSame.symm
  have hColumns : columns = columns.take place ++ column :: columns.drop (place + 1) := by
    rw [← hFound, ← List.drop_eq_getElem_cons hWidth, List.take_append_drop]
  have hCount := hKeyed.countP ▸ (hTable.proper index hIndex).multiValued
  rw [hColumns, List.countP_append, List.countP_cons, if_pos hMany] at hCount
  have hFront : (columns.take place).countP (·.multiValued) = 0 := by omega
  have hBack : (columns.drop (place + 1)).countP (·.multiValued) = 0 := by omega
  refine ⟨columns.take place, columns.drop (place + 1), hColumns, ?_, ?_, ?_⟩
  · rw [List.length_take, Nat.min_eq_left (Nat.le_of_lt hWidth), List.getElem?_eq_getElem hPlace,
      hGet]
  · simpa using List.countP_eq_zero.mp hFront
  · simpa using List.countP_eq_zero.mp hBack

theorem KeyedBy.countsKeys (hKeyed : slot.KeyedBy table index columns)
    (hTable : table.WellFormed) (hIndex : index ∈ table.indices)
    (hTuple : index.isTuple = false) (hConform : table.conformRow given = .ok row)
    (hKeys : slot.keysFor row = .ok keys) : index.CountsKeys table row keys where
  single hParts := by
    have hNone : index.columns.countP (KeyPart.isMultiValued table.columns) = 0 :=
      List.countP_eq_zero.mpr (by simpa using hParts)
    have hSingle := List.countP_eq_zero.mp (hKeyed.countP.trans hNone)
    exact hKeyed.size_of_single hTable hIndex hTuple hConform hKeys (by simpa using hSingle)
  multiple part hPart column hColumn hMany := by
    obtain ⟨front, back, hColumns, hAt, hFront, hBack⟩ :=
      hKeyed.split_of_multiValued hTable hIndex hPart hColumn hMany
    have hSize :=
      hKeyed.size_of_elements hTable hIndex hTuple hConform hKeys hColumns hFront hBack hAt
    have hHolds := Table.holds_of_conformRow hTable hConform hColumn
    rw [Column.Holds, if_pos hMany] at hHolds
    obtain ⟨items, hItems, hFits⟩ := hHolds
    have hElements : column.elements row = if items.isEmpty then [.null] else items := by
      rw [Column.elements, if_pos hMany, hItems]
      rfl
    refine ⟨items, items.map (KeyColumn.segment ⟨column.type, part.direction⟩ false), ?_, ?_, ?_⟩
    · rw [Table.valueOf, hColumn]
      exact hItems
    · refine Except.mapM_eq_ok_iff.mpr (List.forall₂_map_right_iff.mpr ?_)
      refine List.forall₂_same.mpr fun item hItem => ?_
      exact KeyColumn.encode_eq_ok_iff.mpr ⟨item, Value.coerce?_of_fits (hFits item hItem), rfl⟩
    · rw [hSize, hElements]
      cases items <;> rfl

end Slot

/-- A row with keys in an index has at least one. -/
theorem IndexDefinition.CountsKeys.pos {table : Table} {index : IndexDefinition} {row : Row}
    {keys : KeySet} (hCounts : index.CountsKeys table row keys) : 0 < keys.size := by
  by_cases hSingle : ∀ part ∈ index.columns, part.isMultiValued table.columns = false
  · exact hCounts.single hSingle ▸ Nat.one_pos
  · push Not at hSingle
    obtain ⟨part, hPart, hSome⟩ := hSingle
    obtain ⟨column, hColumn, hMany⟩ := (Option.any_eq_true _ _).mp (Bool.not_eq_false _ |>.mp hSome)
    obtain ⟨items, segments, -, hSegments, hSize⟩ :=
      hCounts.multiple part hPart column hColumn hMany
    cases items with
    | nil => exact hSize ▸ Nat.one_pos
    | cons item items =>
        obtain ⟨segment, rest, -, -, rfl⟩ :=
          List.forall₂_cons_left_iff.mp (Except.mapM_eq_ok_iff.mp hSegments)
        rw [hSize]
        exact List.length_pos_of_mem (List.mem_dedup.mpr List.mem_cons_self)

/-- What a table accepts of a row is well typed and always indexable. Every column holds a value of
its type, or null where it accepts it, and a multi-valued column a list of such values or nulls. The
stored row is stored again as it is, and its keys are there in every index, whatever entries that
has; in an index without suffixes there is at least one, and their number is that of the different
segments. -/
theorem Table.wellTyped_and_indexable_of_conformRow {table : Table} {name : String}
    {steps : List Declaration} {given row : Row}
    (hDeclare : Table.declare name steps = .ok table)
    (hConform : table.conformRow given = .ok row) :
    List.Forall₂ Column.WellTyped table.columns row ∧ table.conformRow row = .ok row ∧
      (∀ index ∈ table.indices, ∃ blank, Slot.create table index = .ok blank ∧
        ∀ slot : Slot, slot.clear = blank → ∃ keys, slot.keysFor row = .ok keys ∧
          (index.isTuple = false → 0 < keys.size ∧ index.CountsKeys table row keys)) ∧
      ∀ store, Store.Reachable table store → ∃ keys, store.secondaryKeys row = .ok keys := by
  have hTable := Table.wellFormed_of_declare hDeclare
  have hAgain := conformRow_idem hConform
  refine ⟨conformRow_eq_self_iff.mp hAgain, hAgain, fun index hIndex => ?_, fun store hStore => ?_⟩
  · obtain ⟨blank, hCreate⟩ := Slot.exists_create hTable hIndex
    refine ⟨blank, hCreate, ?_⟩
    rintro slot rfl
    obtain ⟨columns, hKeyed⟩ := Slot.keyedBy_of_create hCreate
    obtain ⟨keys, hKeys⟩ := hKeyed.exists_keysFor hTable hIndex hConform
    refine ⟨keys, hKeys, fun hTuple => ?_⟩
    have hCounts := hKeyed.countsKeys hTable hIndex hTuple hConform hKeys
    exact ⟨hCounts.pos, hCounts⟩
  · exact hStore.invariant.exists_secondaryKeys_of_conformRow hTable hConform

/-- A narrow number, a list that repeats an element and holds null, and null under a tuple index. -/
theorem Table.wellTyped_and_indexable_of_conformRow_of_note :
    let byTag : IndexDefinition :=
      ⟨"byTag", "notes", [⟨"tags", .descending⟩, ⟨"id", .ascending⟩], false, .standard, 1⟩
    let table : Table :=
      { name := "notes"
        columns := [⟨"id", .int64, false, false, 0⟩, ⟨"tags", .bytes, true, true, 1⟩,
          ⟨"body", .bytes, true, false, 2⟩]
        indices := [⟨"pkNotes", "notes", [⟨"id", .ascending⟩], true, .standard, 1⟩, byTag,
          ⟨"byBody", "notes", [⟨"body", .ascending⟩], false, .tuple, 2⟩] }
    let given : Row := [.int32 7, .list [.bytes [1], .null, .bytes [1]], .null]
    let row : Row := [.int64 7, .list [.bytes [1], .null, .bytes [1]], .null]
    table.conformRow given = .ok row ∧ table.conformRow row = .ok row ∧
      ∃ slot keys, Slot.create table byTag = .ok slot ∧ slot.keysFor row = .ok keys ∧
        keys.size = 2 := by
  intro byTag table given row
  have hDeclare : Table.declare "notes" [.column "id" .int64, .multiValued "tags" .bytes,
      .column "body" .bytes, .primaryKey ["id"],
      .definition ⟨"byTag", "", [⟨"tags", .descending⟩, ⟨"id", .ascending⟩], false, .standard, 1⟩,
      .definition ⟨"byBody", "", [⟨"body", .ascending⟩], false, .tuple, 2⟩] = .ok table := rfl
  have hConform : table.conformRow given = .ok row := rfl
  obtain ⟨-, hAgain, hIndices, -⟩ := wellTyped_and_indexable_of_conformRow hDeclare hConform
  obtain ⟨slot, hCreate, hKeys⟩ := hIndices byTag (.tail _ (.head _))
  obtain ⟨keys, hKeysFor, hCounts⟩ := hKeys slot (Slot.create_eq_ok hCreate).1
  refine ⟨hConform, hAgain, slot, keys, hCreate, hKeysFor, ?_⟩
  obtain ⟨items, segments, hItems, hSegments, hSize⟩ := (hCounts rfl).2.multiple
    ⟨"tags", .descending⟩ List.mem_cons_self _ rfl rfl
  obtain rfl : [.bytes [1], .null, .bytes [1]] = items := Value.list.inj hItems
  obtain rfl : [[253, 254, 255, 255], [254], [253, 254, 255, 255]] = segments :=
    Except.ok.inj hSegments
  rw [hSize]
  decide +kernel

end IndexedTable

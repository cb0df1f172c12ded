import IndexedTable.Proofs.KeyLimits
import IndexedTable.Proofs.RowKeys

/-! The keys of a stored row in an index over suffixes. Of every element the index holds the whole
and each proper suffix that is long enough, so that what is held begins with a needle exactly when
the needle occurs in the element, far enough from its end. -/

namespace IndexedTable

section Lists

variable {α : Type} {least : Nat} {needle whole suffix : List α}

/-- Whether a list begins with another one, or contains it at a place from which at least so many
elements remain. -/
def Occurs (least : Nat) (needle whole : List α) : Prop :=
  needle <+: whole ∨ ∃ tail, tail <:+ whole ∧ least ≤ tail.length ∧ needle <+: tail

theorem mem_longSuffixes :
    suffix ∈ longSuffixes least whole ↔
      suffix <:+ whole ∧ suffix ≠ whole ∧ least ≤ suffix.length := by
  induction whole with
  | nil =>
      rw [longSuffixes, List.suffix_nil]
      exact iff_of_false List.not_mem_nil fun hSuffix => hSuffix.2.1 hSuffix.1
  | cons first rest ih =>
      have hProper : suffix <:+ first :: rest ∧ suffix ≠ first :: rest ↔ suffix <:+ rest := by
        rw [List.suffix_cons_iff]
        constructor
        · rintro ⟨hWhole | hSuffix, hNe⟩
          · exact absurd hWhole hNe
          · exact hSuffix
        · intro hSuffix
          refine ⟨.inr hSuffix, ?_⟩
          rintro rfl
          exact Nat.not_succ_le_self _ hSuffix.length_le
      rw [← and_assoc, hProper, longSuffixes]
      split
      · rename_i hLong
        rw [List.mem_cons, ih]
        by_cases hRest : suffix = rest
        · simp [hRest, hLong]
        · simp [hRest]
      · -- Where the rest is too short, so are its suffixes.
        rename_i hShort
        apply iff_of_false List.not_mem_nil
        rintro ⟨hSuffix, hLength⟩
        exact hShort (Nat.le_trans hLength hSuffix.length_le)

/-- A needle occurs where the list or one of its long suffixes begins with it. -/
theorem occurs_iff :
    Occurs least needle whole ↔ ∃ held ∈ whole :: longSuffixes least whole, needle <+: held := by
  constructor
  · rintro (hPrefix | ⟨tail, hTail, hLength, hPrefix⟩)
    · exact ⟨whole, List.mem_cons_self, hPrefix⟩
    · refine ⟨tail, ?_, hPrefix⟩
      by_cases hWhole : tail = whole
      · exact hWhole ▸ List.mem_cons_self
      · exact List.mem_cons_of_mem _ (mem_longSuffixes.mpr ⟨hTail, hWhole, hLength⟩)
  · rintro ⟨held, hHeld, hPrefix⟩
    rcases List.mem_cons.mp hHeld with rfl | hHeld
    · exact .inl hPrefix
    · obtain ⟨hTail, -, hLength⟩ := mem_longSuffixes.mp hHeld
      exact .inr ⟨held, hTail, hLength, hPrefix⟩

/-- A needle that is itself long enough, or empty, occurs wherever the list contains it. -/
theorem occurs_iff_infix (hLong : needle.length = 0 ∨ least ≤ needle.length) :
    Occurs (max 1 least) needle whole ↔ needle <:+: whole := by
  constructor
  · rintro (hPrefix | ⟨tail, hTail, -, hPrefix⟩)
    · exact hPrefix.isInfix
    · exact List.infix_iff_prefix_suffix.mpr ⟨tail, hPrefix, hTail⟩
  · intro hInfix
    obtain ⟨tail, hPrefix, hTail⟩ := List.infix_iff_prefix_suffix.mp hInfix
    by_cases hEmpty : needle.length = 0
    · rw [List.eq_nil_of_length_eq_zero hEmpty]
      exact .inl List.nil_prefix
    · have hLength := hPrefix.length_le
      exact .inr ⟨tail, hTail, by omega, hPrefix⟩

end Lists

namespace Value

/-- Whether the characters of two texts, or the bytes of two binary values, are related. -/
def Related (relation : ∀ {α : Type}, List α → List α → Prop) : Value → Value → Prop
  | text a, text b => relation a.toList b.toList
  | bytes a, bytes b => relation a b
  | _, _ => False

/-- The number of characters of a text, or of bytes of a binary value. -/
def length : Value → Nat
  | text s => s.toList.length
  | bytes b => b.length
  | _ => 0

variable {needle value suffix : Value} {least : Nat} {type : DataType}

/-- The bytes of a text begin with those of another exactly when its characters do. -/
theorem utf8_prefix_iff {s t : String} : utf8 s <+: utf8 t ↔ s.toList <+: t.toList := by
  constructor
  · rintro ⟨rest, hBytes⟩
    apply List.isPrefix_of_utf8Encode_append_eq_utf8Encode ⟨rest.toArray⟩
    rw [String.utf8Encode_toList, String.utf8Encode_toList]
    apply ByteArray.ext
    apply Array.toList_inj.mp
    rw [ByteArray.data_append, Array.toList_append]
    exact hBytes
  · rintro ⟨rest, hChars⟩
    refine ⟨rest.utf8Encode.data.toList, ?_⟩
    rw [utf8, utf8, ← @String.utf8Encode_toList t, ← hChars, List.utf8Encode_append,
      String.utf8Encode_toList, ByteArray.data_append, Array.toList_append]

theorem related_prefix_iff {content : List UInt8} (hNeedle : needle.content? = some content)
    (hType : needle.dataType? = value.dataType?) :
    needle.Related (· <+: ·) value ↔ ∃ bytes, value.content? = some bytes ∧ content <+: bytes := by
  cases needle with
  | text s =>
      cases value <;> cases hType
      cases hNeedle
      simpa [Related, content?] using utf8_prefix_iff.symm
  | bytes b =>
      cases value <;> cases hType
      cases hNeedle
      simp [Related, content?]
  | _ => cases hNeedle

/-- A needle occurs in a value exactly when a held suffix begins with it. -/
theorem related_occurs_iff :
    needle.Related (Occurs least) value ↔
      ∃ suffix ∈ value.suffixes least, needle.Related (· <+: ·) suffix := by
  cases needle with
  | text a =>
      cases value with
      | text b => simp [Related, suffixes, occurs_iff]
      | _ => simp [Related, suffixes]
  | bytes a =>
      cases value with
      | bytes b => simp [Related, suffixes, occurs_iff]
      | _ => simp [Related, suffixes]
  | _ => simp [Related]

theorem related_occurs_iff_infix (hLong : needle.length = 0 ∨ least ≤ needle.length) :
    needle.Related (Occurs (max 1 least)) value ↔ needle.Related (· <:+: ·) value := by
  cases needle with
  | text a =>
      cases value with
      | text b => exact occurs_iff_infix hLong
      | _ => rfl
  | bytes a =>
      cases value with
      | bytes b => exact occurs_iff_infix hLong
      | _ => rfl
  | _ => rfl

theorem dataType?_of_mem_suffixes (hSuffix : suffix ∈ value.suffixes least) :
    suffix.dataType? = value.dataType? := by
  cases value with
  | text s =>
      rcases List.mem_cons.mp hSuffix with rfl | hSuffix
      · rfl
      · obtain ⟨chars, -, rfl⟩ := List.mem_map.mp hSuffix
        rfl
  | bytes b =>
      rcases List.mem_cons.mp hSuffix with rfl | hSuffix
      · rfl
      · obtain ⟨rest, -, rfl⟩ := List.mem_map.mp hSuffix
        rfl
  | _ => cases hSuffix

/-- A value with suffixes is not null, so that these have its type. -/
theorem dataType?_of_mem_suffixes_of_fits (hFits : value.Fits type)
    (hSuffix : suffix ∈ value.suffixes least) : suffix.dataType? = some type := by
  rw [dataType?_of_mem_suffixes hSuffix]
  rcases hFits with rfl | hType
  · cases hSuffix
  · exact hType

end Value

namespace Column

/-- The elements of a stored value. The null that stands for an empty list is none of them. -/
theorem flatMap_elements {β : Type} {column : Column} {row : Row} {f : Value → List β}
    (hNull : f .null = []) (hHolds : column.Holds (row.getD column.position .null)) :
    (row.getD column.position .null).elements.flatMap f = (column.elements row).flatMap f := by
  unfold elements
  unfold Holds at hHolds
  generalize row.getD column.position .null = value at hHolds ⊢
  cases hMany : column.multiValued with
  | true =>
      simp only [hMany, if_true] at hHolds ⊢
      obtain ⟨items, rfl, -⟩ := hHolds
      cases items with
      | nil => simp [Value.contributions, Value.elements, hNull]
      | cons item items => rfl
  | false =>
      simp only [hMany, Bool.false_eq_true, if_false] at hHolds ⊢
      cases value with
      | list items => rcases hHolds with hNull | hType <;> contradiction
      | _ => rfl

end Column

namespace Slot

/-- A slot of an index over the suffixes of one column, with the keys of those of each record. -/
structure IndexesSuffixes (slot : Slot) (records : List StoredRecord) (index : IndexDefinition)
    (column : Column) : Prop where
  layout : ∃ direction, slot.index.layout = [⟨column.type, direction⟩]
  fits : ∀ record ∈ records, ∀ element ∈ column.elements record.row, element.Fits column.type
  mem_entries : ∀ entry, entry ∈ slot.index.entries.toList ↔
    ∃ record ∈ records, ∃ element ∈ column.elements record.row,
      ∃ suffix ∈ element.suffixes (max 1 index.minLength),
        entry = ⟨⟨slot.index.layout.bytes [suffix]⟩, record.bookmark⟩

/-- The value lists of a row in an index over suffixes. -/
theorem mem_keyValues_iff_suffix {slot : Slot} {column : Column} {row : Row} {values : List Value}
    (hTuple : slot.definition.isTuple = true) (hPositions : slot.positions = [column.position])
    (hHolds : column.Holds (row.getD column.position .null)) :
    values ∈ slot.keyValues row ↔ ∃ element ∈ column.elements row,
      ∃ suffix ∈ element.suffixes (max 1 slot.definition.minLength), values = [suffix] := by
  simp only [keyValues, hTuple, keyColumns, hPositions, if_true, List.map_cons, List.map_nil,
    List.headD_cons]
  rw [Column.flatMap_elements rfl hHolds]
  simp only [List.mem_flatMap, List.mem_map, eq_comm]

end Slot

namespace Store

variable {table : Table} {store : Store} {index : IndexDefinition} {column : Column}

/-- A declared index over suffixes is found under its name, with the suffixes of the records. -/
theorem exists_indexesSuffixes (hTable : table.WellFormed) (hStore : Invariant table store)
    (hIndex : index ∈ table.indices) (hTuple : index.isTuple = true)
    (hPrimary : index.primary = false) {part : KeyPart} (hColumns : index.columns = [part])
    (hColumn : table.column? part.column = some column) :
    ∃ slot, store.slot (some index.name) = .ok slot ∧
      slot.IndexesSuffixes store.records.toList index column := by
  obtain ⟨slot, hSlot, hCreate, hPlace⟩ := slot_of_index hTable hStore hIndex
  have hAgrees := (hStore.secondary slot (by simpa [hPrimary] using hPlace)).toAgreesWith
  obtain ⟨columns, hKeyed⟩ := Slot.keyedBy_of_create hCreate
  obtain rfl : columns = [column] := by
    have hParts := hKeyed.parts
    rw [hColumns] at hParts
    obtain ⟨found, rest, hFound, hRest, rfl⟩ := List.forall₂_cons_left_iff.mp hParts
    cases hRest
    rw [Option.some.inj (hFound.symm.trans hColumn)]
  have hLayout : slot.index.layout = [⟨column.type, part.direction⟩] := by
    rw [hKeyed.layout, hColumns]
    rfl
  have hHolds : ∀ record ∈ store.records.toList,
      column.Holds (record.row.getD column.position .null) := by
    intro record hRecord
    obtain ⟨given, hConform⟩ := hStore.conformed record hRecord
    exact Table.holds_of_conformRow hTable hConform hColumn
  have hFits : ∀ record ∈ store.records.toList, ∀ element ∈ column.elements record.row,
      element.Fits column.type :=
    fun record hRecord element => Column.fits_of_mem_elements (hHolds record hRecord)
  have hValues : ∀ record ∈ store.records.toList, ∀ values, values ∈ slot.keyValues record.row ↔
      ∃ element ∈ column.elements record.row,
        ∃ suffix ∈ element.suffixes (max 1 index.minLength), values = [suffix] := by
    intro record hRecord values
    rw [← hKeyed.definition]
    exact Slot.mem_keyValues_iff_suffix (hKeyed.definition ▸ hTuple) hKeyed.positions
      (hHolds record hRecord)
  refine ⟨slot, hSlot, ⟨_, hLayout⟩, hFits, fun entry => ?_⟩
  rw [hAgrees.mem_entries_iff]
  · refine exists_congr fun record => and_congr_right fun hRecord => ?_
    simp only [hValues record hRecord]
    constructor
    · rintro ⟨_, ⟨element, hElement, suffix, hSuffix, rfl⟩, hEntry⟩
      exact ⟨element, hElement, suffix, hSuffix, hEntry⟩
    · rintro ⟨element, hElement, suffix, hSuffix, hEntry⟩
      exact ⟨[suffix], ⟨element, hElement, suffix, hSuffix, rfl⟩, hEntry⟩
  · intro record hRecord values hIn
    obtain ⟨element, hElement, suffix, hSuffix, rfl⟩ := (hValues record hRecord values).mp hIn
    rw [hLayout]
    have hType :=
      Value.dataType?_of_mem_suffixes_of_fits (hFits record hRecord element hElement) hSuffix
    exact ⟨.inr hType, trivial⟩

end Store

end IndexedTable

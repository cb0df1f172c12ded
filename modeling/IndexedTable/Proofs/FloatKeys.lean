import IndexedTable.Proofs.WholeIndex

/-! Keys of floating-point numbers. They are in the order of the numbers, and equal numbers have one
key, whatever their patterns; but among not-a-number patterns, which are all equal and above every
number, a key goes by sign and payload. A search for such a pattern finds the pattern alone. -/

namespace IndexedTable

namespace Binary64

/-- Numbers that have one key: equal ones, of the not-a-number patterns each only itself. -/
def SharesKey (x y : Binary64) : Prop := x.equal y = true ∧ (x.isNaN = true → x = y)

theorem ordinal_eq_ordinal_iff {x y : Binary64} : x.ordinal = y.ordinal ↔ x.SharesKey y := by
  unfold SharesKey equal
  rw [← Nat.compare_eq_eq]
  cases hx : x.isNaN <;> cases hy : y.isNaN
  · simp [compare_ordinal, Std.LawfulEqCmp.compare_eq_iff_eq]
  · have hSwap : compare x.ordinal y.ordinal = (compare y.ordinal x.ordinal).swap :=
      Std.OrientedCmp.eq_swap
    rw [hSwap, ordinal_isNaN hy hx]
    cases y.negative <;> simp
  · rw [ordinal_isNaN hx hy]
    cases x.negative <;> simp
  · simp only [Nat.compare_eq_eq, Bool.and_self, if_true, true_and, true_implies]
    exact ⟨eq_of_ordinal_eq hx hy, congrArg ordinal⟩

end Binary64

theorem Direction.apply_injective (direction : Direction) : Function.Injective direction.apply := by
  intro a b hSame
  cases direction <;> cases a <;> cases b <;> first | rfl | cases hSame

namespace KeyLayout

variable {layout : KeyLayout} {direction : Direction} {x : Binary64} {values : List Value}

theorem fits_float (layout : KeyLayout) (direction : Direction) (x : Binary64) :
    Fits (⟨.float64, direction⟩ :: layout) [.float64 x] := by
  refine ⟨.inr rfl, ?_⟩
  cases layout <;> trivial

/-- Keys of one number compare as the ordinals do. -/
theorem compare_bytes_float (direction : Direction) (x y : Binary64) :
    compare (Key.mk (bytes [⟨.float64, direction⟩] [.float64 x]))
        (Key.mk (bytes [⟨.float64, direction⟩] [.float64 y])) =
      direction.apply (compare x.ordinal y.ordinal) := by
  have hSettled := settled?_bytes (fits_float [] direction x) (fits_float [] direction y) rfl
  rw [Key.compare_mk, compare_of_settled hSettled]
  exact Ordering.then_eq

/-- In a layout that begins with a floating-point column, a number alone finds the lists that begin
with a number of its key. -/
theorem keyOrder_float_eq_iff {value : Value} (hFits : value.Fits .float64) :
    keyOrder (⟨.float64, direction⟩ :: layout) (value :: values) [.float64 x] = .eq ↔
      ∃ y, value = .float64 y ∧ x.SharesKey y := by
  have hRest : lexicographic Value.keyOrder layout values [] = .eq := by
    cases layout <;> cases values <;> rfl
  rw [keyOrder, lexicographic, hRest, Ordering.then_eq, Direction.apply_eq_eq_iff]
  rcases hFits with rfl | hType
  · simp [Value.keyOrder, Value.order, Value.rank]
  · cases value <;> cases hType
    rename_i y
    rw [Value.keyOrder, Nat.compare_eq_eq, eq_comm, Binary64.ordinal_eq_ordinal_iff]
    simp

end KeyLayout

namespace ValueRange

variable {layout : KeyLayout} {given us : List Value}

/-- The keys of an exact match are those that begin with its values. -/
theorem interval_of_exact (hus : layout.coerce? given = some us) (name : String)
    (reversed : Bool) : ∃ interval,
      (ScanStrategy.exact name layout.width given reversed).valueRange.intervalFor layout =
        .ok interval ∧
      ∀ values, layout.Fits values → values.length = layout.width →
        (interval.contains ⟨layout.bytes values⟩ = true ↔ layout.keyOrder values us = .eq) := by
  have hSpans : (ScanStrategy.exact name layout.width given reversed).valueRange.Spans
      layout.width given given := by
    refine ⟨.inr ⟨_, rfl, ?_⟩, .inr ⟨.rangeEnd, rfl, .inl rfl⟩⟩
    split
    · exact .inl rfl
    · exact .inr rfl
  obtain ⟨interval, hInterval, hContains⟩ := hSpans.interval hus hus
  refine ⟨interval, hInterval, fun values hFits hFull => ?_⟩
  rw [hContains values hFits hFull, KeyLayout.Between]
  cases layout.keyOrder values us <;> simp

end ValueRange

namespace Slot

variable {slot : Slot} {table : Table} {records : List StoredRecord} {index : IndexDefinition}
  {column : Column} {columns : List Column} {interval : KeyInterval} {reversed : Bool}
  {bookmark : Bookmark} {direction : Direction} {layout : KeyLayout} {x : Binary64}

/-- The records met in the interval of a number are those with an element that has its key. -/
theorem Indexes.mem_bookmarks_float
    (hIndexes : slot.Indexes table records index (column :: columns))
    (hLayout : slot.index.layout = ⟨.float64, direction⟩ :: layout)
    (hContains : ∀ values, slot.index.layout.Fits values →
      values.length = slot.index.layout.width →
        (interval.contains ⟨slot.index.layout.bytes values⟩ = true ↔
          slot.index.layout.keyOrder values [.float64 x] = .eq)) :
    bookmark ∈ (ValueRange.hits slot.index interval reversed).map (·.bookmark) ↔
      ∃ record ∈ records, record.bookmark = bookmark ∧
        ∃ y, .float64 y ∈ column.elements record.row ∧ x.SharesKey y := by
  simp only [List.mem_map, ValueRange.mem_hits, hIndexes.mem_entries]
  constructor
  · rintro ⟨_, ⟨⟨record, hRecord, values, hChooses, rfl⟩, hInside⟩, rfl⟩
    have hFits := hIndexes.fits record hRecord values hChooses
    have hOrder := (hContains values hFits (hIndexes.length_of_chooses hChooses)).mp hInside
    obtain ⟨value, rest, hElement, -, rfl⟩ := List.forall₂_cons_left_iff.mp hChooses
    rw [hLayout] at hFits hOrder
    obtain ⟨y, rfl, hShares⟩ := (KeyLayout.keyOrder_float_eq_iff hFits.1).mp hOrder
    exact ⟨record, hRecord, rfl, y, hElement, hShares⟩
  · rintro ⟨record, hRecord, rfl, y, hElement, hShares⟩
    obtain ⟨rest, hRest⟩ := exists_chooses record.row columns
    have hChooses : Chooses record.row (column :: columns) (.float64 y :: rest) :=
      .cons hElement hRest
    have hFits := hIndexes.fits record hRecord _ hChooses
    refine ⟨_, ⟨⟨record, hRecord, _, hChooses, rfl⟩, ?_⟩, rfl⟩
    rw [hContains _ hFits (hIndexes.length_of_chooses hChooses), hLayout]
    exact (KeyLayout.keyOrder_float_eq_iff (.inr rfl)).mpr ⟨y, rfl, hShares⟩

end Slot

/-- No index over suffixes is one over numbers. -/
theorem IndexDefinition.Proper.isTuple_of_float {table : Table} {index : IndexDefinition}
    {part : KeyPart} {column : Column} (hProper : index.Proper table.columns)
    (hPart : index.columns.head? = some part) (hColumn : table.column? part.column = some column)
    (hType : column.type = .float64) : index.isTuple = false := by
  by_contra hTuple
  obtain ⟨only, covered, hColumns, hCovered, hSuffixes⟩ := hProper.tuple (by simpa using hTuple)
  rw [hColumns] at hPart
  obtain rfl := Option.some.inj hPart
  obtain rfl := Option.some.inj (hCovered.symm.trans hColumn)
  rw [hType] at hSuffixes
  cases hSuffixes

namespace Store

variable {table : Table} {store : Store} {cursor : Cursor} {name : String}
  {steps : List Declaration}

/-- A search for a number finds the records with an element of its key. -/
theorem exists_found_of_float {index : IndexDefinition} {part : KeyPart} {column : Column}
    (hTable : table.WellFormed) (hReachable : Reachable table store) (hCursor : cursor.On store)
    (hIndex : index ∈ table.indices) (hPart : index.columns.head? = some part)
    (hColumn : table.column? part.column = some column) (hType : column.type = .float64)
    (x : Binary64) (reversed distinct : Bool) :
    let filter : Filter := ⟨.exact index.name index.width [.float64 x] reversed, distinct⟩
    ∃ found : List Bookmark,
      (filter.scan cursor).toEnd.items = found.map .ok ∧ (filter.scan cursor).toEnd.ended = true ∧
      ∀ bookmark, bookmark ∈ found ↔ ∃ row, store.get? bookmark = some row ∧
        ∃ y, .float64 y ∈ column.elements row ∧ x.SharesKey y := by
  intro filter
  have hTuple := (hTable.proper index hIndex).isTuple_of_float hPart hColumn hType
  obtain ⟨slot, columns, hSlot, hIndexes⟩ :=
    exists_indexes hTable hReachable.invariant hIndex hTuple
  obtain ⟨parts, hColumns⟩ := List.head?_eq_some_iff.mp hPart
  obtain ⟨found, rest, hFound, -, rfl⟩ :=
    List.forall₂_cons_left_iff.mp (hColumns ▸ hIndexes.parts)
  obtain rfl : found = column := Option.some.inj (hFound.symm.trans hColumn)
  have hLayout := hIndexes.layout
  rw [hColumns, List.zipWith_cons_cons, hType] at hLayout
  have hus : slot.index.layout.coerce? [.float64 x] = some [.float64 x] := by
    rw [hLayout]
    exact KeyLayout.coerce?_of_fits (KeyLayout.fits_float _ _ x)
  obtain ⟨interval, hInterval, hContains⟩ :=
    ValueRange.interval_of_exact hus index.name reversed
  rw [hIndexes.width] at hInterval
  have hVisits : (filter.scan cursor).Visits (ValueRange.hits slot.index interval reversed) :=
    hReachable.visits_scan hTable hCursor hSlot hInterval
  refine ⟨_, hVisits.items, hVisits.ended, fun bookmark => ?_⟩
  rw [Scan.mem_returned, hIndexes.mem_bookmarks_float hLayout hContains]
  exact exists_record_iff fun row => ∃ y, .float64 y ∈ found.elements row ∧ x.SharesKey y

/-- The keys of two numbers compare as the numbers do exactly if they are comparable, and are the
same exactly if the numbers share one. A search for a number in an index that begins with a
floating-point column returns the records with an element of its key: of an equal number, or of the
same pattern if that is not a number. -/
theorem floatKeys_order (hDeclare : Table.declare name steps = .ok table)
    (hReachable : Reachable table store) (hCursor : cursor.On store) :
    (∀ direction x y, ∃ k l,
      KeyLayout.makeKey [⟨.float64, direction⟩] [.float64 x] .exact = .ok k ∧
      KeyLayout.makeKey [⟨.float64, direction⟩] [.float64 y] .exact = .ok l ∧
      (compare k l = direction.apply (Value.order (.float64 x) (.float64 y)) ↔ x.Comparable y) ∧
      (k = l ↔ Value.equal (.float64 x) (.float64 y) = true ∧ (x.isNaN = true → x = y))) ∧
    ∀ index ∈ table.indices, ∀ part column, index.columns.head? = some part →
      table.column? part.column = some column → column.type = .float64 →
      ∀ (x : Binary64) (reversed distinct : Bool),
        let filter : Filter := ⟨.exact index.name index.width [.float64 x] reversed, distinct⟩
        ∃ found : List Bookmark,
          (filter.scan cursor).toEnd.items = found.map .ok ∧
          (filter.scan cursor).toEnd.ended = true ∧
          ∀ bookmark, bookmark ∈ found ↔ ∃ row, store.get? bookmark = some row ∧
            ∃ y, .float64 y ∈ column.elements row ∧
              Value.equal (.float64 x) (.float64 y) = true ∧ (x.isNaN = true → x = y) := by
  refine ⟨fun direction x y => ?_, ?_⟩
  · refine ⟨_, _, KeyLayout.makeKey_of_fits (KeyLayout.fits_float [] direction x),
      KeyLayout.makeKey_of_fits (KeyLayout.fits_float [] direction y), ?_, ?_⟩
    · rw [KeyLayout.compare_bytes_float, direction.apply_injective.eq_iff]
      exact Binary64.compare_ordinal_eq_order_iff x y
    · refine (Std.LawfulEqCmp.compare_eq_iff_eq : compare _ _ = .eq ↔ _).symm.trans ?_
      rw [KeyLayout.compare_bytes_float, Direction.apply_eq_eq_iff, Nat.compare_eq_eq]
      exact Binary64.ordinal_eq_ordinal_iff
  · intro index hIndex part column hPart hColumn hType x reversed distinct
    have hTable := Table.wellFormed_of_declare hDeclare
    exact exists_found_of_float hTable hReachable hCursor hIndex hPart hColumn hType x reversed
      distinct

/-- Two not-a-number patterns, equal as values, of which a search for one finds that one alone. -/
theorem floatKeys_order_of_nan :
    let table : Table :=
      { name := "readings"
        columns := [⟨"value", .float64, false, false, 0⟩]
        indices := [⟨"byValue", "readings", [⟨"value", .ascending⟩], false, .standard, 1⟩] }
    let quiet : Binary64 := ⟨0x7ff8000000000000⟩
    let signed : Binary64 := ⟨0xfff8000000000000⟩
    let operations : List StoreOperation := [.insert [.float64 quiet], .insert [.float64 signed]]
    let filter : Filter := ⟨.exact "byValue" 1 [.float64 quiet] false, false⟩
    ∃ first, create table = .ok first ∧
      let store := operations.foldl apply first
      Value.equal (.float64 quiet) (.float64 signed) = true ∧
      (∃ k l, KeyLayout.makeKey [⟨.float64, .ascending⟩] [.float64 quiet] .exact = .ok k ∧
        KeyLayout.makeKey [⟨.float64, .ascending⟩] [.float64 signed] .exact = .ok l ∧ k ≠ l) ∧
      ∃ found, (filter.scan (store.cursor .byValues)).toEnd.items = found.map .ok ∧
        found = [⟨[2, 128, 0, 0, 0, 0, 0, 0, 0]⟩] ∧
        ∀ bookmark, bookmark ∈ found ↔ ∃ row, store.get? bookmark = some row ∧
          ∃ y, .float64 y ∈ Column.elements ⟨"value", .float64, false, false, 0⟩ row ∧
            Value.equal (.float64 quiet) (.float64 y) = true ∧
              (quiet.isNaN = true → quiet = y) := by
  intro table quiet signed operations filter
  have hDeclare : Table.declare "readings" [.column "value" .float64, .index "byValue" ["value"]] =
      .ok table := rfl
  obtain ⟨first, hCreate, hItems⟩ : ∃ first, create table = .ok first ∧
      (filter.scan ((operations.foldl apply first).cursor .byValues)).toEnd.items =
        [⟨[2, 128, 0, 0, 0, 0, 0, 0, 0]⟩].map .ok :=
    ⟨_, rfl, by decide +kernel⟩
  obtain ⟨hKeys, hSearch⟩ := floatKeys_order hDeclare
    ((Reachable.created hCreate).foldl operations) (cursor_on _ .byValues)
  obtain ⟨k, l, hk, hl, -, hSame⟩ := hKeys .ascending quiet signed
  obtain ⟨found, hFound, -, hMem⟩ := hSearch _ (.head _) _ _ rfl rfl rfl quiet false false
  have hEqual : Value.equal (.float64 quiet) (.float64 signed) = true := by decide +kernel
  refine ⟨first, hCreate, hEqual, ⟨k, l, hk, hl, fun hKey => ?_⟩, found, hFound, ?_, hMem⟩
  · exact absurd ((hSame.mp hKey).2 (by decide)) (by decide)
  · exact List.map_injective_iff.mpr (fun _ _ => Except.ok.inj) (hFound.symm.trans hItems)

end Store

end IndexedTable

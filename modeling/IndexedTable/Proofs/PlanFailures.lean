import IndexedTable.Proofs.FilterReuse
import IndexedTable.Proofs.PlanSources

/-! What can go wrong with a plan. Every store of the table has the index that the plan reads, and
the key of the index has room for its values; only the types of values that come with the arguments
are not known before. So a scan fails for the first value that the type of its key column does not
take and for nothing else, and it does so before it returns a record. -/

namespace IndexedTable

namespace KeyColumn

variable {column : KeyColumn} {value : Value} {e : IndexError}

/-- The error that a key column meets a value with, unless its type takes the value. -/
def refusal? (column : KeyColumn) (value : Value) : Option IndexError :=
  match value.coerce? column.type with
  | some _ => none
  | none => some (.keyTypeMismatch column.type value.render)

theorem refusal?_eq_none_iff : column.refusal? value = none ↔ value.coerce? column.type ≠ none := by
  unfold refusal?
  cases value.coerce? column.type <;> simp

theorem refusal?_eq_some_iff : column.refusal? value = some e ↔
    value.coerce? column.type = none ∧ e = .keyTypeMismatch column.type value.render := by
  unfold refusal?
  cases value.coerce? column.type <;> simp [eq_comm]

theorem error?_encode {isOpen : Bool} :
    (column.encode isOpen value).error? = column.refusal? value := by
  unfold encode refusal?
  cases hCoerce : value.coerce? column.type with
  | none => rfl
  | some coerced =>
      obtain ⟨segment, hSegment⟩ := segment?_of_fits (Value.fits_of_coerce? hCoerce) isOpen
      rw [Option.bind_some, hSegment]
      rfl

end KeyColumn

namespace KeyLayout

variable {layout : KeyLayout} {values : List Value} {limit : KeyLimit}

/-- The error of the first value that its key column does not take. -/
def refusal? (layout : KeyLayout) (values : List Value) : Option IndexError :=
  (layout.zip values).findSome? fun (column, value) => column.refusal? value

/-- A value list that has a place in the key, and a leading part to match only where every key
column offers that. -/
structure Takes (layout : KeyLayout) (values : List Value) (limit : KeyLimit) : Prop where
  short : values.length ≤ layout.width
  leading : limit.isPartial = true →
    values ≠ [] ∧ ∀ column ∈ layout, column.type.supportsPartialMatch = true

theorem error?_segments {isPartial : Bool} (hPartial : isPartial = true →
      ∀ column ∈ layout, column.type.supportsPartialMatch = true) :
    (layout.segments isPartial values).error? = layout.refusal? values := by
  induction layout generalizing values with
  | nil => cases values <;> rfl
  | cons column columns ih =>
      cases values with
      | nil => rfl
      | cons value values =>
          have hOpen :
              (isPartial && values.isEmpty && !column.type.supportsPartialMatch) = false := by
            cases isPartial with
            | false => rfl
            | true => simp [hPartial rfl column List.mem_cons_self]
          have hRest (first : List UInt8) : (segments isPartial columns values >>= fun others =>
              pure (first ++ others)).error? = refusal? columns values :=
            (Except.error?_bind_of_ok fun others _ => ⟨first ++ others, rfl⟩).trans
              (ih fun hOpen column hColumn => hPartial hOpen column (.tail _ hColumn))
          simp only [segments, hOpen, Bool.false_eq_true, if_false]
          rw [Except.error?_bind fun first _ => hRest first, KeyColumn.error?_encode]
          cases hRefusal : column.refusal? value <;> simp [refusal?, hRefusal]

/-- A key for values that have a place in it is refused only for the type of a value. -/
theorem Takes.error?_makeKey (hTakes : layout.Takes values limit) :
    (layout.makeKey values limit).error? = layout.refusal? values := by
  have hShort : ¬layout.width < values.length := Nat.not_lt.mpr hTakes.short
  have hSome : (limit.isPartial && values.isEmpty) = false := by
    cases hPartial : limit.isPartial with
    | false => rfl
    | true => simpa using (hTakes.leading hPartial).1
  simp only [makeKey, hShort, hSome, Bool.false_eq_true, if_false]
  exact (Except.error?_bind_of_ok fun bytes _ => ⟨_, rfl⟩).trans
    (error?_segments fun hPartial => (hTakes.leading hPartial).2)

end KeyLayout

namespace ValueRange

variable {range : ValueRange} {layout : KeyLayout}

/-- The value lists at the ends of a range, the start before the stop. -/
def ends (range : ValueRange) : List (List Value × KeyLimit) :=
  range.start.toList ++ range.stop.toList

theorem error?_mapM_makeKey {given : Option (List Value × KeyLimit)}
    (hTakes : ∀ own ∈ given.toList, layout.Takes own.1 own.2) :
    (given.mapM fun (values, limit) => layout.makeKey values limit).error? =
      given.toList.findSome? fun own => layout.refusal? own.1 := by
  cases given with
  | none => rfl
  | some own =>
      obtain ⟨values, limit⟩ := own
      rw [Option.mapM_some]
      show ((layout.makeKey values limit).map some).error? = _
      rw [Except.error?_map, (hTakes _ (List.mem_singleton_self _)).error?_makeKey]
      simp

theorem error?_intervalFor (hTakes : ∀ own ∈ range.ends, layout.Takes own.1 own.2) :
    (range.intervalFor layout).error? = range.ends.findSome? fun own => layout.refusal? own.1 := by
  obtain ⟨hStart, hStop⟩ := List.forall_mem_append.mp hTakes
  rw [ends, List.findSome?_append, ← error?_mapM_makeKey hStart, ← error?_mapM_makeKey hStop]
  exact Except.error?_bind fun start _ => Except.error?_bind_of_ok fun stop _ => ⟨_, rfl⟩

end ValueRange

namespace ScanStrategy

variable {strategy : ScanStrategy} {index : IndexDefinition}

theorem limitFor_isPartial {width : Nat} {shorter : KeyLimit} {values : List Value}
    (hShorter : shorter.isPartial = false) :
    (limitFor width shorter values).2.isPartial = false := by
  unfold limitFor
  dsimp only
  split
  · exact hShorter
  · rfl

/-- The ends of the range that a strategy reads have its values, and only a match by leading part
leaves a value open. -/
theorem of_mem_ends {own : List Value × KeyLimit} (hOwn : own ∈ strategy.valueRange.ends) :
    own.1 ∈ strategy.valueLists ∧
      (own.2.isPartial = false ∨ ∃ name, strategy = .leading name own.1) := by
  cases strategy with
  | wholeIndex index reversed => cases hOwn
  | exact index width values reversed =>
      rcases List.mem_pair.mp hOwn with rfl | rfl
      · exact ⟨List.mem_singleton_self _, .inl (limitFor_isPartial rfl)⟩
      · exact ⟨List.mem_singleton_self _, .inl rfl⟩
  | range index width start stop reversed =>
      have hGiven {shorter : KeyLimit} {given : Option (List Value)}
          (hShorter : shorter.isPartial = false)
          (hOwn : own ∈ (given.map (limitFor width shorter)).toList) :
          own.1 ∈ given.toList ∧ own.2.isPartial = false := by
        obtain ⟨values, hValues, rfl⟩ := Option.map_eq_some_iff.mp (Option.mem_toList.mp hOwn)
        exact ⟨Option.mem_toList.mpr hValues, limitFor_isPartial hShorter⟩
      rcases List.mem_append.mp hOwn with hStart | hStop
      · exact (hGiven rfl hStart).imp (List.mem_append_left _) .inl
      · exact (hGiven rfl hStop).imp (List.mem_append_right _) .inl
  | leading index values =>
      rcases List.mem_pair.mp hOwn with rfl | rfl
      · exact ⟨List.mem_singleton_self _, .inr ⟨index, rfl⟩⟩
      · exact ⟨List.mem_singleton_self _, .inr ⟨index, rfl⟩⟩

theorem findSome?_ends {f : List Value → Option IndexError} :
    (strategy.valueRange.ends.findSome? fun own => f own.1) = strategy.valueLists.findSome? f := by
  have hTwice (values : List Value) : [values, values].findSome? f = [values].findSome? f := by
    cases hValues : f values <;> simp [hValues]
  cases strategy with
  | wholeIndex index reversed => rfl
  | exact index width values reversed => exact hTwice values
  | range index width start stop reversed =>
      cases start <;> cases stop <;> rfl
  | leading index values => exact hTwice values

/-- The keys of a strategy that fits an index are refused only for the type of a value. -/
theorem Fits.error?_intervalFor {table : Table} {slot : Slot} {columns : List Column}
    (hFits : strategy.Fits index) (hKeyed : slot.KeyedBy table index columns)
    (hProper : index.Proper table.columns) :
    (strategy.valueRange.intervalFor slot.index.layout).error? =
      strategy.valueLists.findSome? slot.index.layout.refusal? := by
  rw [ValueRange.error?_intervalFor, findSome?_ends]
  intro own hOwn
  obtain ⟨hValues, hLimit⟩ := of_mem_ends hOwn
  refine ⟨hKeyed.width ▸ hFits.short own.1 hValues, fun hPartial => ?_⟩
  rcases hLimit with hWhole | ⟨name, hStrategy⟩
  · cases hWhole.symm.trans hPartial
  · obtain ⟨hTuple, hSome⟩ := hFits.leading name own.1 hStrategy
    obtain ⟨part, column, -, -, -, hType, hLayout⟩ := hKeyed.tuple hProper hTuple
    refine ⟨hSome, ?_⟩
    rw [hLayout, List.forall_mem_singleton]
    exact hType

end ScanStrategy

/-- A value of a filter, and the type of the key column that it is compared with. -/
def Filter.Binds (filter : Filter) (table : Table) (value : Value) (type : DataType) : Prop :=
  ∃ index ∈ table.indices, filter.strategy.index = some index.name ∧
    ∃ values ∈ filter.strategy.valueLists, ∃ part column,
      (part, value) ∈ index.columns.zip values ∧ table.column? part.column = some column ∧
        column.type = type

/-- A value of a filter that the type of its key column does not take. -/
def Filter.Refuses (filter : Filter) (table : Table) (value : Value) (type : DataType) : Prop :=
  filter.Binds table value type ∧ value.coerce? type = none

/-- The key columns of a slot have the types that the table declares. -/
theorem Slot.KeyedBy.mem_zip_layout_iff {slot : Slot} {table : Table} {index : IndexDefinition}
    {columns : List Column} {values : List Value} {value : Value} {type : DataType}
    (hKeyed : slot.KeyedBy table index columns) :
    (∃ column, (column, value) ∈ slot.index.layout.zip values ∧ column.type = type) ↔
      ∃ part column, (part, value) ∈ index.columns.zip values ∧
        table.column? part.column = some column ∧ column.type = type := by
  have hPairs := hKeyed.layout_columns
  generalize slot.index.layout = layout at hPairs
  generalize index.columns = parts at hPairs
  induction hPairs generalizing values with
  | nil => simp
  | @cons part keyColumn parts layout hColumn _ ih =>
      obtain ⟨declared, hDeclared, rfl⟩ := hColumn
      cases values with
      | nil => simp
      | cons first values =>
          simp only [List.zip_cons_cons, List.mem_cons, Prod.mk.injEq, or_and_right, exists_or, ih]
          refine or_congr_left ⟨?_, ?_⟩
          · rintro ⟨_, ⟨rfl, rfl⟩, rfl⟩
            exact ⟨part, declared, ⟨rfl, rfl⟩, hDeclared, rfl⟩
          · rintro ⟨_, column, ⟨rfl, rfl⟩, hColumn, rfl⟩
            obtain rfl := Option.some.inj (hDeclared.symm.trans hColumn)
            exact ⟨_, ⟨rfl, rfl⟩, rfl⟩

namespace Scan

variable {scan : Scan} {refused : Value → DataType → Prop} {limit : Nat}

/-- A scan that fails for a value that is refused and for nothing else. It fails before it returns
anything, and it comes to its end in any case. -/
structure FailsOnlyFor (scan : Scan) (refused : Value → DataType → Prop) : Prop where
  fails_iff : (∃ e, .error e ∈ scan.toEnd.items) ↔ ∃ value type, refused value type
  error : ∀ e, .error e ∈ scan.toEnd.items → scan.toEnd.items = [.error e] ∧
    ∃ value type, refused value type ∧ e = .keyTypeMismatch type value.render
  ended : scan.toEnd.ended = true
  exhausted : scan.toEnd.scan.next = (none, scan.toEnd.scan)

/-- A scan that returned less than it might has come to its end. -/
theorem ended_of_length_items_lt (hLess : (take limit scan).items.length < limit) :
    (take limit scan).ended = true := by
  induction limit generalizing scan with
  | zero => cases hLess
  | succ limit ih =>
      rw [take] at hLess ⊢
      rcases hNext : scan.next with ⟨_ | item, after⟩
      · rfl
      · rw [hNext] at hLess
        exact ih (Nat.lt_of_succ_lt_succ hLess)

theorem failsOnlyFor_of_items (hEnded : scan.toEnd.ended = true)
    (hItems : (∃ found : List Bookmark, scan.toEnd.items = found.map .ok ∧
        ∀ value type, ¬refused value type) ∨
      ∃ value type, refused value type ∧
        scan.toEnd.items = [.error (.keyTypeMismatch type value.render)]) :
    scan.FailsOnlyFor refused := by
  have hYields : scan.Yields scan.toEnd.items scan.toEnd.scan := yields_take hEnded
  have hNext := hYields.answers_after.next_eq
  rcases hItems with ⟨found, hFound, hNone⟩ | ⟨value, type, hRefused, hError⟩
  · have hNoError (e : IndexError) : Except.error e ∉ scan.toEnd.items := by simp [hFound]
    refine ⟨⟨?_, ?_⟩, fun e he => absurd he (hNoError e), hEnded, hNext⟩
    · exact fun ⟨e, he⟩ => absurd he (hNoError e)
    · exact fun ⟨value, type, hRefused⟩ => absurd hRefused (hNone value type)
  · refine ⟨⟨fun _ => ⟨value, type, hRefused⟩, fun _ => ⟨_, hError ▸ List.mem_singleton_self _⟩⟩,
      fun e he => ?_, hEnded, hNext⟩
    rw [hError, List.mem_singleton] at he
    cases he
    exact ⟨hError, value, type, hRefused, rfl⟩

end Scan

namespace Filter

variable {filter : Filter} {table : Table} {store : Store} {cursor : Cursor} {slot : Slot}
  {interval : KeyInterval} {from? : Option Bookmark} {e : IndexError}

section Reached

variable (hTable : table.WellFormed) (hReachable : Store.Reachable table store)
  (hCursor : cursor.On store) (hSlot : store.slot filter.strategy.index = .ok slot)

include hTable hReachable hCursor hSlot

/-- A scan of a range that has keys returns no error. -/
theorem toEnd_of_intervalFor_eq_ok
    (hInterval : filter.strategy.valueRange.intervalFor slot.index.layout = .ok interval) :
    let scan : Scan := ⟨filter, cursor, .pending from?, .empty⟩
    (∃ found : List Bookmark, scan.toEnd.items = found.map .ok) ∧ scan.toEnd.ended = true := by
  cases from? with
  | none =>
      have hVisits : (filter.scan cursor).Visits _ :=
        hReachable.visits_scan hTable hCursor hSlot hInterval
      exact ⟨⟨_, hVisits.items⟩, hVisits.ended⟩
  | some bookmark =>
      obtain ⟨rfl, hOn⟩ := hCursor
      have hStore := hReachable.invariant
      have hNames := Store.indexNames_nodup hTable hStore
      rw [← ScanStrategy.index_valueRange] at hSlot
      cases hFirst : (ValueRange.hits slot.index interval filter.strategy.reversed).find?
          fun entry => decide (entry.bookmark = bookmark) with
      | none =>
          have hItems : (filter.scanFrom cursor bookmark).toEnd.items = [] := by
            apply items_scanFrom_of_not_mem hNames hStore hOn hSlot hInterval
            simpa using hFirst
          refine ⟨⟨[], hItems⟩, Scan.ended_of_length_items_lt ?_⟩
          exact hItems ▸ Nat.succ_pos _
      | some entry =>
          obtain ⟨hOwn, before, after, hHits, hBefore⟩ := List.find?_eq_some_iff_append.mp hFirst
          obtain rfl := of_decide_eq_true hOwn
          have hVisits := visits_scanFrom hNames hStore hOn hSlot hInterval hHits
            fun other hOther => by simpa using hBefore other hOther
          exact ⟨⟨_, hVisits.items⟩, hVisits.ended⟩

/-- A scan of a range without keys returns the error and is over. -/
theorem toEnd_of_intervalFor_eq_error
    (hInterval : filter.strategy.valueRange.intervalFor slot.index.layout = .error e) :
    let scan : Scan := ⟨filter, cursor, .pending from?, .empty⟩
    scan.toEnd.items = [.error e] ∧ scan.toEnd.ended = true := by
  have hAdvance : (⟨filter, cursor, .pending from?, .empty⟩ : Scan).advance.1 = .error e := by
    obtain ⟨prepared, hPrepare, -⟩ := @ValueRange.prepare_spec filter.strategy.valueRange cursor
      store (Store.indexNames_nodup hTable hReachable.invariant) hCursor
    rw [advance_pending, ValueRange.applyFrom_eq, hPrepare, ScanStrategy.index_valueRange, hSlot,
      Except.bind, hInterval]
  obtain ⟨hItems, hEnded⟩ := Scan.take_of_advance_error hAdvance
  exact ⟨hItems, hEnded.trans (decide_eq_true (Nat.succ_pos _))⟩

end Reached

end Filter

namespace Table

variable {table : Table} {store : Store} {plan : Plan} {arguments : List Value} {filter : Filter}
  {cursor : Cursor} {from? : Option Bookmark}

/-- Every store of the table has the index that a bound plan reads, and refuses its keys only for
the type of a value. -/
theorem Plans.exists_slot (hTable : table.WellFormed) (hStore : Store.Invariant table store)
    (hPlan : table.Plans plan) (hBind : plan.bind arguments = .ok filter) :
    ∃ slot, store.slot filter.strategy.index = .ok slot ∧
      (filter.strategy.valueRange.intervalFor slot.index.layout).error? =
        filter.strategy.valueLists.findSome? slot.index.layout.refusal? ∧
      ∀ value type, filter.Binds table value type ↔ ∃ values ∈ filter.strategy.valueLists,
        ∃ column, (column, value) ∈ slot.index.layout.zip values ∧ column.type = type := by
  have hResolves := Plan.resolves_of_bind hBind
  rcases hPlan.cases with ⟨reversed, hShape⟩ | ⟨index, hIndex, hFits⟩
  · obtain ⟨hSelected, hNone, -⟩ := hShape ▸ hResolves
    have hStrategy : filter.strategy.valueLists = [] := List.forall₂_nil_left_iff.mp hNone
    refine ⟨store.clustering, by rw [hSelected]; rfl, ?_, fun value type => ?_⟩
    · rw [ValueRange.error?_intervalFor, ScanStrategy.findSome?_ends]
      intro own hOwn
      have hValues := (ScanStrategy.of_mem_ends hOwn).1
      rw [hStrategy] at hValues
      cases hValues
    · simp [Filter.Binds, hStrategy]
  · have hFitsStrategy := hFits.fits_strategy hResolves
    have hSelected : filter.strategy.index = some index.name :=
      hResolves.selected.trans hFits.selected
    obtain ⟨slot, hSlot, hCreate, -⟩ := Store.slot_of_index hTable hStore hIndex
    obtain ⟨columns, hKeyed⟩ := Slot.keyedBy_of_create hCreate
    refine ⟨slot, hSelected ▸ hSlot,
      hFitsStrategy.error?_intervalFor hKeyed (hTable.proper index hIndex), fun value type => ?_⟩
    simp only [hKeyed.mem_zip_layout_iff]
    -- The filter names its index, and two declared indices of one name are the same.
    constructor
    · rintro ⟨other, hOther, hName, hBinds⟩
      obtain rfl := List.inj_on_of_nodup_map hTable.indexNames hOther hIndex
        (Option.some.inj (hName.symm.trans hSelected))
      exact hBinds
    · exact fun hBinds => ⟨index, hIndex, hSelected, hBinds⟩

/-- A scan of a bound plan fails only for the type of a value. -/
theorem Plans.failsOnlyFor (hTable : table.WellFormed) (hReachable : Store.Reachable table store)
    (hPlan : table.Plans plan) (hBind : plan.bind arguments = .ok filter)
    (hCursor : cursor.On store) :
    Scan.FailsOnlyFor ⟨filter, cursor, .pending from?, .empty⟩ (filter.Refuses table) := by
  obtain ⟨slot, hSlot, hError, hBinds⟩ := hPlan.exists_slot hTable hReachable.invariant hBind
  cases hInterval : filter.strategy.valueRange.intervalFor slot.index.layout with
  | ok interval =>
      obtain ⟨⟨found, hFound⟩, hEnded⟩ :=
        @Filter.toEnd_of_intervalFor_eq_ok filter table store cursor slot interval from? hTable
          hReachable hCursor hSlot hInterval
      refine Scan.failsOnlyFor_of_items hEnded (.inl ⟨found, hFound, ?_⟩)
      rintro value type ⟨hBound, hRefused⟩
      obtain ⟨values, hValues, column, hColumn, rfl⟩ := (hBinds value type).mp hBound
      rw [hInterval] at hError
      have hTaken := List.findSome?_eq_none_iff.mp hError.symm values hValues
      have hValue := List.findSome?_eq_none_iff.mp hTaken (column, value) hColumn
      exact KeyColumn.refusal?_eq_none_iff.mp hValue hRefused
  | error e =>
      obtain ⟨hItems, hEnded⟩ :=
        @Filter.toEnd_of_intervalFor_eq_error filter table store cursor slot from? e hTable
          hReachable hCursor hSlot hInterval
      rw [hInterval] at hError
      obtain ⟨values, hValues, hRefusal⟩ := List.exists_of_findSome?_eq_some hError.symm
      obtain ⟨⟨column, value⟩, hColumn, hValue⟩ := List.exists_of_findSome?_eq_some hRefusal
      obtain ⟨hRefused, rfl⟩ := KeyColumn.refusal?_eq_some_iff.mp hValue
      exact Scan.failsOnlyFor_of_items hEnded (.inr ⟨value, column.type,
        ⟨(hBinds _ _).mpr ⟨values, hValues, column, hColumn, rfl⟩, hRefused⟩, hItems⟩)

/-- A plan for a table fails for two reasons only. Binding it succeeds exactly when every positional
argument among its sources is there, and otherwise tells of the first that is missing; scanning what
it is bound to, over any store of the table, fails exactly when the type of a key column does not
take its value, and says so once. -/
theorem failures_of_plans {name : String} {steps : List Declaration}
    (hDeclare : declare name steps = .ok table) (hPlan : table.Plans plan)
    (arguments : List Value) :
    ((∃ filter, plan.bind arguments = .ok filter) ↔
      ValueSource.Supplied arguments plan.shape.sources) ∧
    (∀ e, plan.bind arguments = .error e →
      ValueSource.FirstMissing arguments plan.shape.sources e) ∧
    ∀ filter, plan.bind arguments = .ok filter →
      Plan.Resolves plan.shape arguments filter.strategy ∧
      ∀ store cursor, Store.Reachable table store → cursor.On store →
        (filter.scan cursor).FailsOnlyFor (filter.Refuses table) ∧
          ∀ bookmark, (filter.scanFrom cursor bookmark).FailsOnlyFor (filter.Refuses table) := by
  have hTable := wellFormed_of_declare hDeclare
  have hError := @Plans.error?_bind table plan arguments hPlan
  refine ⟨?_, fun e hFails => ?_, fun filter hBind => ⟨Plan.resolves_of_bind hBind, ?_⟩⟩
  · rw [← Except.error?_eq_none_iff, hError, ValueSource.missing?_eq_none_iff]
  · rw [← ValueSource.missing?_eq_some_iff, ← hError, Except.error?_eq_some_iff, hFails]
  · intro store cursor hReachable hCursor
    exact ⟨hPlan.failsOnlyFor hTable hReachable hBind hCursor,
      fun bookmark => hPlan.failsOnlyFor hTable hReachable hBind hCursor⟩

/-- The key begins with the second argument. Without it the plan is not bound; with a text for the
number that comes after it the plan is bound, but no scan of it succeeds. -/
theorem failures_of_plans_of_text :
    let table : Table :=
      { name := "notes"
        columns := [⟨"id", .int32, false, false, 0⟩, ⟨"tag", .text, true, false, 1⟩]
        indices := [⟨"byTag", "notes", [⟨"tag", .ascending⟩, ⟨"id", .ascending⟩], false,
          .standard, 1⟩] }
    let predicate : Expr := .binary .and (.binary .atLeast (.field "id") (.argument 0))
      (.binary .equal (.field "tag") (.argument 1))
    let plan : Plan := ⟨2, false, .range "byTag" (some [.argument 1, .argument 0])
      (some [.argument 1]) false⟩
    let filter : Filter :=
      ⟨.range "byTag" 2 (some [.text "a", .text "x"]) (some [.text "a"]) false, false⟩
    declare "notes" [.column "id" .int32, .column "tag" .text, .nullable ["tag"],
        .index "byTag" ["tag", "id"]] = .ok table ∧
      table.compile predicate .ascending = .ok ⟨plan, []⟩ ∧
      ValueSource.FirstMissing [.int32 3] plan.shape.sources (.missingArgument 1 1) ∧
      plan.bind [.text "x", .text "a"] = .ok filter ∧
      ∀ store, Store.Reachable table store →
        ∃ e, (filter.scan (store.cursor .byValues)).toEnd.items = [.error e] := by
  intro table predicate plan filter
  have hDeclare : declare "notes" [.column "id" .int32, .column "tag" .text, .nullable ["tag"],
      .index "byTag" ["tag", "id"]] = .ok table := rfl
  have hCompile : table.compile predicate .ascending = .ok ⟨plan, []⟩ := rfl
  have hBind : plan.bind [.text "x", .text "a"] = .ok filter := rfl
  have hPlan : table.Plans plan := .compiled hCompile
  obtain ⟨-, hMissing, -⟩ := failures_of_plans hDeclare hPlan [.int32 3]
  obtain ⟨-, -, hScan⟩ := failures_of_plans hDeclare hPlan [.text "x", .text "a"]
  refine ⟨hDeclare, hCompile, hMissing _ rfl, hBind, fun store hReachable => ?_⟩
  obtain ⟨hFails, -⟩ := (hScan filter hBind).2 store (store.cursor .byValues) hReachable
    (Store.cursor_on _ .byValues)
  have hRefused : filter.Refuses table (.text "x") .int32 :=
    ⟨⟨_, List.mem_singleton_self _, rfl, _, .head _, ⟨"id", .ascending⟩, _, .tail _ (.head _), rfl,
      rfl⟩, rfl⟩
  obtain ⟨e, he⟩ := hFails.fails_iff.mpr ⟨_, _, hRefused⟩
  exact ⟨e, (hFails.error e he).1⟩

end Table

end IndexedTable

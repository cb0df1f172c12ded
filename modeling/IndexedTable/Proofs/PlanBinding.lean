import IndexedTable.Plan.Basic
import IndexedTable.Proofs.IndexChoice

/-! A compiled conjunction, bound to its arguments. Compiling chooses a declared index whose leading
columns are the fields mentioned, and the bound plan reads the interval of its keys whose values
pass the conditions that count. -/

namespace IndexedTable

namespace ValueRange

/-- A range from the keys that begin with some values to those that begin with others. -/
structure Spans (range : ValueRange) (width : Nat) (start stop : List Value) : Prop where
  start : (range.start = none ∧ start = []) ∨
    ∃ limit, range.start = some (start, limit) ∧ (limit = .rangeStart ∨ limit = .exact)
  stop : (range.stop = none ∧ stop = []) ∨
    ∃ limit, range.stop = some (stop, limit) ∧
      (limit = .rangeEnd ∨ (limit = .exact ∧ stop.length = width))

variable {range : ValueRange} {width : Nat} {givenStart givenStop us ue : List Value}
  {layout : KeyLayout}

theorem Spans.startKey (hSpans : range.Spans width givenStart givenStop)
    (hus : layout.coerce? givenStart = some us) : ∃ start,
    (range.start.mapM fun (values, limit) => layout.makeKey values limit) = .ok start ∧
      ∀ values, layout.Fits values → values.length = layout.width →
        (start.all (fun key => decide (key ≤ ⟨layout.bytes values⟩)) = true ↔
          layout.keyOrder values us ≠ .lt) := by
  obtain ⟨hFits, -⟩ := KeyLayout.fits_of_coerce? hus
  rcases hSpans.start with ⟨hNone, rfl⟩ | ⟨limit, hSome, hLimit⟩
  · obtain rfl := Option.some.inj (KeyLayout.coerce?_nil.symm.trans hus)
    refine ⟨none, by rw [hNone]; rfl, fun values _ _ => ?_⟩
    cases layout <;> cases values <;> simp [KeyLayout.keyOrder, KeyLayout.lexicographic]
  · have hPartial : limit.isPartial = false := by rcases hLimit with rfl | rfl <;> rfl
    have hMark : KeyLayout.limitMark limit = [] := by rcases hLimit with rfl | rfl <;> rfl
    refine ⟨some ⟨layout.bytes us ++ KeyLayout.limitMark limit⟩, ?_, fun values hValues hFull => ?_⟩
    · simp only [hSome, Option.mapM_some, KeyLayout.makeKey_of_coerce? hus hPartial]
      rfl
    · rw [Option.all_some, decide_eq_true_iff]
      exact KeyLayout.start_le_iff hFits hValues hFull hMark

theorem Spans.stopKey (hSpans : range.Spans layout.width givenStart givenStop)
    (hue : layout.coerce? givenStop = some ue) : ∃ stop,
    (range.stop.mapM fun (values, limit) => layout.makeKey values limit) = .ok stop ∧
      ∀ values, layout.Fits values → values.length = layout.width →
        (stop.all (fun key => decide (⟨layout.bytes values⟩ ≤ key)) = true ↔
          layout.keyOrder values ue ≠ .gt) := by
  obtain ⟨hFits, hLength⟩ := KeyLayout.fits_of_coerce? hue
  rcases hSpans.stop with ⟨hNone, rfl⟩ | ⟨limit, hSome, hLimit⟩
  · obtain rfl := Option.some.inj (KeyLayout.coerce?_nil.symm.trans hue)
    refine ⟨none, by rw [hNone]; rfl, fun values _ _ => ?_⟩
    cases layout <;> cases values <;> simp [KeyLayout.keyOrder, KeyLayout.lexicographic]
  · have hPartial : limit.isPartial = false := by rcases hLimit with rfl | ⟨rfl, -⟩ <;> rfl
    refine ⟨some ⟨layout.bytes ue ++ KeyLayout.limitMark limit⟩, ?_, fun values hValues hFull => ?_⟩
    · simp only [hSome, Option.mapM_some, KeyLayout.makeKey_of_coerce? hue hPartial]
      rfl
    · rw [Option.all_some, decide_eq_true_iff]
      exact KeyLayout.le_stop_iff hFits hValues hFull (hLength ▸ hLimit)

/-- The keys of such a range are those of the value lists between the two. -/
theorem Spans.interval (hSpans : range.Spans layout.width givenStart givenStop)
    (hus : layout.coerce? givenStart = some us) (hue : layout.coerce? givenStop = some ue) :
    ∃ interval, range.intervalFor layout = .ok interval ∧
      ∀ values, layout.Fits values → values.length = layout.width →
        (interval.contains ⟨layout.bytes values⟩ = true ↔ layout.Between us ue values) := by
  obtain ⟨start, hStart, hAfter⟩ := hSpans.startKey hus
  obtain ⟨stop, hStop, hBefore⟩ := hSpans.stopKey hue
  refine ⟨⟨start, stop⟩, ?_, fun values hFits hFull => ?_⟩
  · rw [intervalFor, hStart, hStop]
    rfl
  · rw [KeyInterval.contains, Bool.and_eq_true]
    exact and_congr (hAfter values hFits hFull) (hBefore values hFits hFull)

end ValueRange

namespace Plan

variable {arguments : List Value} {start stop : List ValueSource} {name : String}
  {width : Nat} {reversed : Bool} {shape : PlanShape} {strategy : ScanStrategy}

theorem checkWidth_eq_ok_iff {values : List Value} :
    ScanStrategy.checkWidth name width values = .ok () ↔ values.length ≤ width := by
  unfold ScanStrategy.checkWidth
  split
  · simpa using ‹width < values.length›
  · simpa using ‹¬width < values.length›

theorem limitFor_eq {shorter : KeyLimit} {values : List Value} (hWidth : values.length ≤ width) :
    ∃ limit, ScanStrategy.limitFor width shorter values = (values, limit) ∧
      (limit = shorter ∨ (limit = .exact ∧ values.length = width)) := by
  unfold ScanStrategy.limitFor
  split
  · exact ⟨_, rfl, .inl rfl⟩
  · exact ⟨_, rfl, .inr ⟨rfl, by omega⟩⟩

theorem resolveEnd_eq_ok {sources : List ValueSource} {resolved : Option (List Value)}
    (hResolve : ValueSource.resolveEnd arguments (ValueSource.endOf sources) = .ok resolved) :
    ∃ given, ValueSource.resolveAll arguments sources = .ok given ∧
      ((resolved = none ∧ given = []) ∨ resolved = some given) := by
  cases sources with
  | nil =>
      cases hResolve
      exact ⟨[], rfl, .inl ⟨rfl, rfl⟩⟩
  | cons source sources =>
      obtain ⟨given, hGiven, rfl⟩ := Except.map_eq_ok_iff.mp hResolve
      exact ⟨given, hGiven, .inr rfl⟩

/-- A bound plan reads the range between the values at its two ends. -/
theorem bindShape_eq_ok
    (hShape : (shape = .exact name start reversed ∧ stop = start) ∨
      shape = .range name (ValueSource.endOf start) (ValueSource.endOf stop) reversed)
    (hBind : bindShape width arguments shape = .ok strategy) : ∃ givenStart givenStop,
      ValueSource.resolveAll arguments start = .ok givenStart ∧
        ValueSource.resolveAll arguments stop = .ok givenStop ∧
        strategy.valueRange.index = some name ∧ strategy.reversed = reversed ∧
        strategy.valueRange.Spans width givenStart givenStop := by
  rcases hShape with ⟨rfl, rfl⟩ | rfl
  · simp only [bindShape, ScanStrategy.checkedExact, Except.bind_eq_ok_iff,
      Except.pure_eq_ok_iff] at hBind
    obtain ⟨given, hGiven, _, hWidth, rfl⟩ := hBind
    obtain ⟨limit, hLimit, hKind⟩ :=
      @limitFor_eq width .rangeStart given (checkWidth_eq_ok_iff.mp hWidth)
    refine ⟨given, given, hGiven, hGiven, rfl, rfl, .inr ⟨limit, congrArg some hLimit, ?_⟩,
      .inr ⟨_, rfl, .inl rfl⟩⟩
    exact hKind.imp_right And.left
  · simp only [bindShape, ScanStrategy.checkedRange, Except.bind_eq_ok_iff,
      Except.pure_eq_ok_iff] at hBind
    obtain ⟨first, hFirst, last, hLast, _, hStartWidth, _, hStopWidth, rfl⟩ := hBind
    obtain ⟨givenStart, hGivenStart, hStartEnd⟩ := resolveEnd_eq_ok hFirst
    obtain ⟨givenStop, hGivenStop, hStopEnd⟩ := resolveEnd_eq_ok hLast
    refine ⟨givenStart, givenStop, hGivenStart, hGivenStop, rfl, rfl, ?_, ?_⟩
    · rcases hStartEnd with ⟨rfl, rfl⟩ | rfl
      · exact .inl ⟨rfl, rfl⟩
      · obtain ⟨limit, hLimit, hKind⟩ :=
          @limitFor_eq width .rangeStart givenStart (checkWidth_eq_ok_iff.mp hStartWidth)
        exact .inr ⟨limit, congrArg some hLimit, hKind.imp_right And.left⟩
    · rcases hStopEnd with ⟨rfl, rfl⟩ | rfl
      · exact .inl ⟨rfl, rfl⟩
      · obtain ⟨limit, hLimit, hKind⟩ :=
          @limitFor_eq width .rangeEnd givenStop (checkWidth_eq_ok_iff.mp hStopWidth)
        exact .inr ⟨limit, congrArg some hLimit, hKind⟩

end Plan

namespace Table

variable {table : Table} {predicate : Expr} {direction : Direction} {conditions : List Condition}
  {selection : Selection} {reversed : Bool}

/-- Comparisons are answered by a declared index of its own kind. -/
theorem selectRange_eq_ok (hSelect : table.selectRange conditions reversed = .ok selection) :
    ∃ index ∈ table.indices, index.isTuple = false ∧
      selection.plan.width = index.width ∧
      selection.plan.distinct = index.repeatsRecords table ∧
      index.answer? conditions reversed = some (selection.plan.shape, selection.ignored) := by
  unfold selectRange at hSelect
  dsimp only at hSelect
  split at hSelect
  · cases hSelect
  · split at hSelect
    · cases hSelect
    · split at hSelect
      · cases hSelect
      · rename_i index shape ignored hFind
        obtain ⟨candidate, hCandidate, hAnswer⟩ := List.exists_of_findSome?_eq_some hFind
        obtain ⟨answer, hAnswered, hSame⟩ := Option.map_eq_some_iff.mp hAnswer
        cases hSame
        cases hSelect
        obtain ⟨hIndex, hOpen⟩ := List.mem_filter.mp hCandidate
        have hTuple := (Bool.and_eq_true_iff.mp hOpen).1
        exact ⟨index, hIndex, by simpa using hTuple, rfl, rfl, hAnswered⟩

/-- Whether every value that a condition that counts is bound to converts to the type of its
column. -/
def Converts (table : Table) (conditions : List Condition) (arguments : List Value) : Prop :=
  ∀ condition ∈ conditions, ∀ column, table.column? condition.field = some column →
    ∀ own ∈ Condition.effective (Condition.on conditions condition.field), ∀ given,
      own.source.resolve arguments = .ok given → (given.coerce? column.type).isSome

end Table

namespace Slot

variable {table : Table} {index : IndexDefinition} {slot : Slot} {columns : List Column}
  {conditions : List Condition} {arguments : List Value}

theorem KeyedBy.layout_columns (hKeyed : slot.KeyedBy table index columns) :
    List.Forall₂ (fun (part : KeyPart) (column : KeyColumn) => ∃ declared,
      table.column? part.column = some declared ∧ column = ⟨declared.type, part.direction⟩)
      index.columns slot.index.layout := by
  rw [hKeyed.layout]
  have hParts := hKeyed.parts
  clear hKeyed
  generalize index.columns = parts at hParts ⊢
  induction hParts with
  | nil => exact .nil
  | cons hColumn _ ih => exact .cons ⟨_, hColumn, rfl⟩ ih

theorem KeyedBy.width (hKeyed : slot.KeyedBy table index columns) :
    slot.index.layout.width = index.width :=
  hKeyed.layout_columns.length_eq.symm

theorem KeyedBy.length_of_chooses {row : Row} {values : List Value}
    (hKeyed : slot.KeyedBy table index columns) (hChooses : Chooses row columns values) :
    values.length = slot.index.layout.width := by
  rw [hKeyed.width]
  exact hChooses.length_eq.symm.trans hKeyed.parts.length_eq.symm

end Slot

namespace Condition

variable {table : Table} {conditions : List Condition} {arguments : List Value} {part : KeyPart}

theorem converts_of_column {declared : Column} (hConverts : table.Converts conditions arguments)
    (hDeclared : table.column? part.column = some declared) :
    Converts conditions arguments part ⟨declared.type, part.direction⟩ := by
  intro own hOwn given hGiven
  obtain ⟨hCondition, hField⟩ := List.mem_filter.mp (mem_of_mem_effective hOwn)
  have hSame : own.field = part.column := by simpa using hField
  exact hConverts own hCondition declared (hSame ▸ hDeclared) own (hSame ▸ hOwn) given hGiven

/-- Where the leading parts of a key take all conditions, the others have none. -/
theorem on_eq_nil_of_covered {front back : List KeyPart}
    (hDistinct : ((front ++ back).map (·.column)).Nodup)
    (hCovered : ∀ condition ∈ conditions, ∃ part ∈ front, part.column = condition.field) :
    ∀ part ∈ back, on conditions part.column = [] := by
  intro part hPart
  refine List.filter_eq_nil_iff.mpr fun condition hCondition hField => ?_
  obtain ⟨own, hOwn, hOwnField⟩ := hCovered condition hCondition
  rw [List.map_append] at hDistinct
  refine List.disjoint_of_nodup_append hDistinct (List.mem_map_of_mem hOwn) ?_
  rw [hOwnField, show condition.field = part.column by simpa using hField]
  exact List.mem_map_of_mem hPart

end Condition

/-- A range between the ends that the conditions give has the keys whose values pass them. -/
theorem Slot.KeyedBy.interval_of_spans {table : Table} {index : IndexDefinition} {slot : Slot}
    {columns : List Column} {conditions : List Condition}
    {arguments givenStart givenStop : List Value}
    {front back : List KeyPart} {start stop : List ValueSource} {range : ValueRange}
    (hKeyed : slot.KeyedBy table index columns) (hColumns : index.columns = front ++ back)
    (hDistinct : (index.columns.map (·.column)).Nodup)
    (hCovered : ∀ condition ∈ conditions, ∃ part ∈ front, part.column = condition.field)
    (hEnds : Condition.Ends conditions front start stop)
    (hStart : ValueSource.resolveAll arguments start = .ok givenStart)
    (hStop : ValueSource.resolveAll arguments stop = .ok givenStop)
    (hSpans : range.Spans index.width givenStart givenStop)
    (hConverts : table.Converts conditions arguments) :
    ∃ interval, range.intervalFor slot.index.layout = .ok interval ∧
      ∀ values, slot.index.layout.Fits values → values.length = slot.index.layout.width →
        (interval.contains ⟨slot.index.layout.bytes values⟩ = true ↔
          KeyLayout.Accepts Value.keyOrder conditions arguments index.columns slot.index.layout
            values) := by
  have hLayout := hKeyed.layout_columns
  rw [hColumns] at hLayout
  have hDirections : List.Forall₂ (fun (part : KeyPart) (column : KeyColumn) =>
      column.direction = part.direction) (front ++ back) slot.index.layout := by
    refine hLayout.imp fun part column hDeclared => ?_
    obtain ⟨declared, -, rfl⟩ := hDeclared
    rfl
  have hConvertsParts : List.Forall₂ (Condition.Converts conditions arguments) (front ++ back)
      slot.index.layout := by
    refine hLayout.imp fun part column hDeclared => ?_
    obtain ⟨declared, hDeclared, rfl⟩ := hDeclared
    exact Condition.converts_of_column hConverts hDeclared
  obtain ⟨⟨us, hus⟩, ue, hue⟩ := hEnds.coerce? hConvertsParts hStart hStop
  rw [← hKeyed.width] at hSpans
  obtain ⟨interval, hInterval, hContains⟩ := hSpans.interval hus hue
  have hFree := Condition.on_eq_nil_of_covered (hColumns ▸ hDistinct) hCovered
  refine ⟨interval, hInterval, fun values hFits hFull => ?_⟩
  rw [hContains values hFits hFull, hEnds.between_iff hDirections hStart hStop hus hue hFull,
    hColumns, KeyLayout.accepts_append_iff hFree]

namespace Plan

/-- How the filter of a bound plan answers conditions: by an interval of the keys of an index whose
columns take all of them. -/
structure AnswersBy (plan : Plan) (filter : Filter) (table : Table) (conditions : List Condition)
    (arguments : List Value) (reversed : Bool) (index : IndexDefinition) : Prop where
  declared : index ∈ table.indices
  standard : index.isTuple = false
  planned : plan.shape.index = some index.name
  selected : filter.strategy.valueRange.index = some index.name
  direction : filter.strategy.reversed = reversed
  distinct : filter.distinct = index.repeatsRecords table
  covered : ∀ condition ∈ conditions, ∃ part ∈ index.columns, part.column = condition.field
  interval : ∀ (slot : Slot) (columns : List Column), slot.KeyedBy table index columns →
    ∃ interval, filter.strategy.valueRange.intervalFor slot.index.layout = .ok interval ∧
      ∀ values, slot.index.layout.Fits values → values.length = slot.index.layout.width →
        (interval.contains ⟨slot.index.layout.bytes values⟩ = true ↔
          KeyLayout.Accepts Value.keyOrder conditions arguments index.columns slot.index.layout
            values)

/-- A compiled and bound conjunction is answered by a declared index. -/
theorem exists_answersBy {table : Table} {predicate : Expr} {direction : Direction}
    {conditions : List Condition} {selection : Selection} {arguments : List Value} {filter : Filter}
    (hTable : table.WellFormed) (hPredicate : predicate.Conjoins conditions)
    (hCompile : table.compile predicate direction = .ok selection)
    (hBind : selection.plan.bind arguments = .ok filter)
    (hConverts : table.Converts conditions arguments) :
    ∃ index, selection.plan.AnswersBy filter table conditions arguments direction.isDescending
      index := by
  have hSelect := (Table.compile_eq_selectRange hPredicate).symm.trans hCompile
  obtain ⟨index, hIndex, hTuple, hWidth, hDistinct, hAnswer⟩ := Table.selectRange_eq_ok hSelect
  obtain ⟨groups, hGroups, hShape⟩ := Option.bind_eq_some_iff.mp hAnswer
  obtain ⟨front, back, hColumns, rfl, hCovered⟩ := IndexDefinition.groups?_eq_some hGroups
  obtain ⟨start, stop, hEnds, hKind⟩ := IndexDefinition.shapeOf_ends hShape
  simp only [List.nil_append] at hKind
  simp only [Plan.bind, Except.bind_eq_ok_iff, Except.pure_eq_ok_iff] at hBind
  obtain ⟨strategy, hStrategy, rfl⟩ := hBind
  obtain ⟨givenStart, givenStop, hStart, hStop, hName, hReversed, hSpans⟩ :=
    bindShape_eq_ok hKind hStrategy
  have hPlanned : selection.plan.shape.index = some index.name := by
    rcases hKind with ⟨hExact, -⟩ | hRange
    · rw [hExact]
      rfl
    · rw [hRange]
      rfl
  refine ⟨index, hIndex, hTuple, hPlanned, hName, hReversed, hDistinct, ?_, ?_⟩
  · intro condition hCondition
    obtain ⟨part, hPart, hField⟩ := hCovered condition hCondition
    exact ⟨part, hColumns ▸ List.mem_append_left back hPart, hField⟩
  · intro slot columns hKeyed
    exact hKeyed.interval_of_spans hColumns (hTable.proper index hIndex).distinct hCovered hEnds
      hStart hStop (hWidth ▸ hSpans) hConverts

end Plan

end IndexedTable

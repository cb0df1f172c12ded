import IndexedTable.Proofs.Containment
import IndexedTable.Proofs.WholeIndex

/-! What a plan needs of its arguments. However a plan was made, it fits the index that it reads: it
has no more values at an end than the key has columns, and matches a leading part only in an index
over suffixes. So binding it fails only for the first source without a value, the sources of the
start before those of the stop. -/

namespace IndexedTable

namespace PlanShape

/-- The sources of each end of the range that is read, the start before the stop. -/
def sourceLists : PlanShape → List (List ValueSource)
  | wholeIndex _ _ => []
  | exact _ values _ | leading _ values => [values]
  | range _ start stop _ => start.toList ++ stop.toList

/-- The sources of all values, in key order. -/
def sources (shape : PlanShape) : List ValueSource := shape.sourceLists.flatten

@[simp] theorem sources_exact {index : String} {values : List ValueSource} {reversed : Bool} :
    (exact index values reversed).sources = values :=
  List.flatten_singleton

@[simp] theorem sources_leading {index : String} {values : List ValueSource} :
    (leading index values).sources = values :=
  List.flatten_singleton

@[simp] theorem sources_range {index : String} {start stop : Option (List ValueSource)}
    {reversed : Bool} :
    (range index start stop reversed).sources = start.toList.flatten ++ stop.toList.flatten :=
  List.flatten_append

end PlanShape

/-- The values at each end of the range that is read, the start before the stop. -/
def ScanStrategy.valueLists : ScanStrategy → List (List Value)
  | wholeIndex _ _ => []
  | exact _ _ values _ | leading _ values => [values]
  | range _ _ start stop _ => start.toList ++ stop.toList

/-- A scan with no more values at an end than the key has columns, and with a leading part to match
only in an index over suffixes. -/
structure ScanStrategy.Fits (strategy : ScanStrategy) (index : IndexDefinition) : Prop where
  short : ∀ values ∈ strategy.valueLists, values.length ≤ index.width
  leading : ∀ name values, strategy = .leading name values → index.isTuple = true ∧ values ≠ []

/-- The plans for a table: of a predicate, or of a request for an index. -/
inductive Table.Plans (table : Table) : Plan → Prop where
  | compiled {predicate : Expr} {direction : Direction} {selection : Selection}
      (hCompile : table.compile predicate direction = .ok selection) : Plans table selection.plan
  | whole {name : Option String} {direction : Direction} {plan : Plan}
      (hPlan : table.planWhole name direction = .ok plan) : Plans table plan
  | exact {name : String} {values : List Expr} {direction : Direction} {plan : Plan}
      (hPlan : table.planExact name values direction = .ok plan) : Plans table plan
  | range {name : String} {start stop : Option (List Expr)} {direction : Direction} {plan : Plan}
      (hPlan : table.planRange name start stop direction = .ok plan) : Plans table plan

namespace ValueSource

variable {arguments : List Value} {sources : List ValueSource} {e : FilterError}

/-- Every positional argument among some sources is there. -/
def Supplied (arguments : List Value) (sources : List ValueSource) : Prop :=
  ∀ place, .argument place ∈ sources → place.toNat < arguments.length

/-- The error tells of the first positional argument among some sources that is missing. -/
def FirstMissing (arguments : List Value) (sources : List ValueSource) (e : FilterError) : Prop :=
  ∃ before place after, sources = before ++ .argument place :: after ∧
    Supplied arguments before ∧ arguments.length ≤ place.toNat ∧
    e = .missingArgument place.toNat arguments.length

/-- The error of the first source without a value. -/
def missing? (arguments : List Value) (sources : List ValueSource) : Option FilterError :=
  sources.findSome? fun source => (source.resolve arguments).error?

theorem error?_resolve_eq_some_iff {source : ValueSource} :
    (source.resolve arguments).error? = some e ↔ ∃ place, source = .argument place ∧
      arguments.length ≤ place.toNat ∧ e = .missingArgument place.toNat arguments.length := by
  cases source with
  | literal value => simp [resolve, Except.error?]
  | thunk t => simp [resolve, Except.error?]
  | argument place =>
      simp only [argument.injEq, exists_eq_left', ← List.getElem?_eq_none_iff, resolve]
      cases arguments[place.toNat]? <;> simp [Except.error?, eq_comm]

theorem missing?_eq_none_iff : missing? arguments sources = none ↔ Supplied arguments sources := by
  rw [missing?, List.findSome?_eq_none_iff]
  constructor
  · intro hNone place hPlace
    by_contra hMissing
    have hError := error?_resolve_eq_some_iff.mpr ⟨place, rfl, Nat.not_lt.mp hMissing, rfl⟩
    cases (hNone _ hPlace).symm.trans hError
  · intro hSupplied source hSource
    by_contra hError
    obtain ⟨e, hError⟩ := Option.ne_none_iff_exists'.mp hError
    obtain ⟨place, rfl, hMissing, -⟩ := error?_resolve_eq_some_iff.mp hError
    exact absurd (hSupplied place hSource) (Nat.not_lt.mpr hMissing)

theorem missing?_eq_some_iff :
    missing? arguments sources = some e ↔ FirstMissing arguments sources e := by
  rw [missing?, List.findSome?_eq_some_iff]
  constructor
  · rintro ⟨before, source, after, rfl, hSource, hBefore⟩
    obtain ⟨place, rfl, hMissing, rfl⟩ := error?_resolve_eq_some_iff.mp hSource
    refine ⟨before, place, after, rfl, missing?_eq_none_iff.mp ?_, hMissing, rfl⟩
    exact List.findSome?_eq_none_iff.mpr hBefore
  · rintro ⟨before, place, after, rfl, hBefore, hMissing, rfl⟩
    refine ⟨before, .argument place, after, rfl,
      error?_resolve_eq_some_iff.mpr ⟨place, rfl, hMissing, rfl⟩, ?_⟩
    exact List.findSome?_eq_none_iff.mp (missing?_eq_none_iff.mpr hBefore)

theorem missing?_append {others : List ValueSource} :
    missing? arguments (sources ++ others) =
      (missing? arguments sources).or (missing? arguments others) :=
  List.findSome?_append

theorem error?_resolveAll :
    (resolveAll arguments sources).error? = missing? arguments sources := by
  induction sources with
  | nil => rfl
  | cons source sources ih =>
      have hRest (first : Value) : (resolveAll arguments sources >>= fun others =>
          pure (first :: others)).error? = missing? arguments sources :=
        (Except.error?_bind_of_ok fun others _ => ⟨first :: others, rfl⟩).trans ih
      rw [resolveAll, Except.error?_bind fun first _ => hRest first]
      cases hError : (source.resolve arguments).error? <;> simp [missing?, hError]

theorem length_resolveAll {values : List Value}
    (hResolve : resolveAll arguments sources = .ok values) : values.length = sources.length := by
  induction sources generalizing values with
  | nil =>
      cases hResolve
      rfl
  | cons source sources ih =>
      obtain ⟨first, others, -, hOthers, rfl⟩ := resolveAll_cons_eq_ok.mp hResolve
      rw [List.length_cons, List.length_cons, ih hOthers]

theorem error?_resolveEnd {given : Option (List ValueSource)} :
    (resolveEnd arguments given).error? = missing? arguments given.toList.flatten := by
  cases given with
  | none => rfl
  | some sources =>
      rw [resolveEnd, Except.error?_map, error?_resolveAll, Option.toList_some,
        List.flatten_singleton]

theorem forall₂_of_resolveEnd {given : Option (List ValueSource)} {resolved : Option (List Value)}
    (hResolve : resolveEnd arguments given = .ok resolved) :
    List.Forall₂ (fun sources values => resolveAll arguments sources = .ok values) given.toList
      resolved.toList := by
  cases given with
  | none =>
      cases hResolve
      exact .nil
  | some sources =>
      obtain ⟨values, hValues, rfl⟩ := Except.map_eq_ok_iff.mp hResolve
      exact .cons hValues .nil

theorem length_ofExprs {values : List Expr} (hSources : ofExprs values = .ok sources) :
    sources.length = values.length := by
  induction values generalizing sources with
  | nil =>
      cases hSources
      rfl
  | cons value values ih =>
      simp only [ofExprs, Except.bind_eq_ok_iff, Except.pure_eq_ok_iff] at hSources
      obtain ⟨first, -, others, hOthers, rfl⟩ := hSources
      rw [List.length_cons, List.length_cons, ih hOthers]

end ValueSource

namespace Plan

/-- A plan that reads a declared index, with no more values at an end than the key has columns, and
with a leading part to match only in an index over suffixes. -/
structure Fits (plan : Plan) (index : IndexDefinition) : Prop where
  selected : plan.shape.index = some index.name
  width : plan.width = index.width
  short : ∀ sources ∈ plan.shape.sourceLists, sources.length ≤ index.width
  leading : ∀ name sources, plan.shape = .leading name sources →
    index.isTuple = true ∧ sources ≠ []

variable {plan : Plan} {index : IndexDefinition} {arguments : List Value} {width : Nat}
  {shape : PlanShape} {strategy : ScanStrategy}

/-- The strategy reads the index of the shape, with the values of its sources. -/
structure Resolves (shape : PlanShape) (arguments : List Value) (strategy : ScanStrategy) :
    Prop where
  selected : strategy.index = shape.index
  values : List.Forall₂
    (fun sources values => ValueSource.resolveAll arguments sources = .ok values)
    shape.sourceLists strategy.valueLists
  leading : ∀ name values, strategy = .leading name values →
    ∃ sources, shape = .leading name sources

theorem checkWidth_of_resolveEnd {name : String} {given : Option (List ValueSource)}
    {resolved : Option (List Value)} (hShort : ∀ sources ∈ given.toList, sources.length ≤ width)
    (hResolve : ValueSource.resolveEnd arguments given = .ok resolved) :
    ScanStrategy.checkWidth name width (resolved.getD []) = .ok () := by
  rw [checkWidth_eq_ok_iff]
  cases resolved with
  | none => exact Nat.zero_le width
  | some values =>
      obtain ⟨sources, hSources, hValues⟩ := (ValueSource.forall₂_of_resolveEnd
        hResolve).exists_of_mem_right (List.mem_singleton_self values)
      exact ValueSource.length_resolveAll hValues ▸ hShort sources hSources

/-- A shape that fits is refused only for an argument that is missing. -/
theorem error?_bindShape (hShort : ∀ sources ∈ shape.sourceLists, sources.length ≤ width)
    (hLeading : ∀ name sources, shape = .leading name sources → sources ≠ []) :
    (bindShape width arguments shape).error? = ValueSource.missing? arguments shape.sources := by
  cases shape with
  | wholeIndex index reversed => rfl
  | exact index sources reversed =>
      rw [PlanShape.sources_exact, bindShape, Except.error?_bind_of_ok,
        ValueSource.error?_resolveAll]
      intro values hValues
      have hLength := hShort sources (List.mem_singleton_self _)
      rw [← ValueSource.length_resolveAll hValues] at hLength
      rw [ScanStrategy.checkedExact, checkWidth_eq_ok_iff.mpr hLength]
      exact ⟨_, rfl⟩
  | range index start stop reversed =>
      obtain ⟨hStart, hStop⟩ := List.forall_mem_append.mp hShort
      have hRest (first : Option (List Value))
          (hFirst : ValueSource.resolveEnd arguments start = .ok first) :
          (ValueSource.resolveEnd arguments stop >>= fun last =>
            ScanStrategy.checkedRange index width first last reversed).error? =
              ValueSource.missing? arguments stop.toList.flatten := by
        rw [Except.error?_bind_of_ok, ValueSource.error?_resolveEnd]
        intro last hLast
        rw [ScanStrategy.checkedRange, checkWidth_of_resolveEnd hStart hFirst,
          checkWidth_of_resolveEnd hStop hLast]
        exact ⟨_, rfl⟩
      rw [PlanShape.sources_range, bindShape, Except.error?_bind hRest,
        ValueSource.error?_resolveEnd, ValueSource.missing?_append]
  | leading index sources =>
      rw [PlanShape.sources_leading, bindShape, Except.error?_bind_of_ok,
        ValueSource.error?_resolveAll]
      intro values hValues
      have hLength := ValueSource.length_resolveAll hValues
      have hSome : values.isEmpty = false := by
        have hSources := List.length_pos_iff.mpr (hLeading index sources rfl)
        simpa using List.ne_nil_of_length_pos (hLength ▸ hSources)
      have hWidth := hShort sources (List.mem_singleton_self _)
      rw [ScanStrategy.checkedLeading, checkWidth_eq_ok_iff.mpr (hLength ▸ hWidth)]
      simp only [hSome]
      exact ⟨_, rfl⟩

/-- What a bound shape reads. -/
theorem resolves_of_bindShape (hBind : bindShape width arguments shape = .ok strategy) :
    Resolves shape arguments strategy := by
  cases shape with
  | wholeIndex index reversed =>
      cases hBind
      exact ⟨rfl, .nil, by rintro _ _ ⟨⟩⟩
  | exact index sources reversed =>
      simp only [bindShape, ScanStrategy.checkedExact, Except.bind_eq_ok_iff,
        Except.pure_eq_ok_iff] at hBind
      obtain ⟨values, hValues, -, -, rfl⟩ := hBind
      exact ⟨rfl, .cons hValues .nil, by rintro _ _ ⟨⟩⟩
  | range index start stop reversed =>
      simp only [bindShape, ScanStrategy.checkedRange, Except.bind_eq_ok_iff,
        Except.pure_eq_ok_iff] at hBind
      obtain ⟨first, hFirst, last, hLast, -, -, -, -, rfl⟩ := hBind
      exact ⟨rfl, List.rel_append (ValueSource.forall₂_of_resolveEnd hFirst)
        (ValueSource.forall₂_of_resolveEnd hLast), by rintro _ _ ⟨⟩⟩
  | leading index sources =>
      simp only [bindShape, ScanStrategy.checkedLeading, Except.bind_eq_ok_iff,
        Except.guard_eq_ok_iff, Except.pure_eq_ok_iff] at hBind
      obtain ⟨values, hValues, -, -, -, rfl⟩ := hBind
      refine ⟨rfl, .cons hValues .nil, ?_⟩
      rintro _ _ ⟨⟩
      exact ⟨sources, rfl⟩

theorem resolves_of_bind {filter : Filter} (hBind : plan.bind arguments = .ok filter) :
    Resolves plan.shape arguments filter.strategy := by
  simp only [bind, Except.bind_eq_ok_iff, Except.pure_eq_ok_iff] at hBind
  obtain ⟨strategy, hStrategy, rfl⟩ := hBind
  exact resolves_of_bindShape hStrategy

/-- A bound plan has as many values as sources. -/
theorem Fits.fits_strategy (hFits : plan.Fits index)
    (hResolves : Resolves plan.shape arguments strategy) : strategy.Fits index where
  short values hValues := by
    obtain ⟨sources, hSources, hResolve⟩ := hResolves.values.exists_of_mem_right hValues
    exact ValueSource.length_resolveAll hResolve ▸ hFits.short sources hSources
  leading name values hStrategy := by
    obtain ⟨sources, hShape⟩ := hResolves.leading name values hStrategy
    obtain ⟨hTuple, hSources⟩ := hFits.leading name sources hShape
    have hValues := hResolves.values
    rw [hShape, hStrategy] at hValues
    obtain ⟨hResolve, -⟩ := List.forall₂_cons.mp hValues
    refine ⟨hTuple, List.ne_nil_of_length_pos ?_⟩
    rw [ValueSource.length_resolveAll hResolve]
    exact List.length_pos_iff.mpr hSources

end Plan

namespace Table

variable {table : Table} {predicate : Expr} {direction : Direction} {selection : Selection}
  {conditions : List Condition} {reversed : Bool} {index : IndexDefinition}
  {sources : List ValueSource} {plan : Plan} {arguments : List Value}

theorem exists_select_of_compile (hCompile : table.compile predicate direction = .ok selection) :
    ∃ conditions, table.select conditions direction.isDescending = .ok selection := by
  obtain ⟨conditions, -, hSelect⟩ := Except.bind_eq_ok_iff.mp hCompile
  split at hSelect
  · cases hSelect
  · exact ⟨conditions, hSelect⟩

theorem select_eq_ok (hSelect : table.select conditions reversed = .ok selection) :
    (∃ condition, table.selectTuple condition = .ok selection) ∨
      table.selectRange conditions reversed = .ok selection := by
  unfold select at hSelect
  split at hSelect
  · cases hSelect
  · exact .inl ⟨_, hSelect⟩
  · exact .inr hSelect

theorem exists_fits_of_selectTuple {condition : Condition}
    (hSelect : table.selectTuple condition = .ok selection) :
    ∃ index ∈ table.indices, selection.plan.Fits index := by
  obtain ⟨index, hIndex, hTuple, hPlace, hPlan⟩ := selectTuple_eq_ok hSelect
  refine ⟨index, hIndex, ?_⟩
  rw [hPlan]
  refine ⟨rfl, rfl, List.forall_mem_singleton.mpr ?_, ?_⟩
  · obtain ⟨hFirst, -⟩ := List.findIdx?_eq_some_iff_getElem.mp hPlace
    exact hFirst
  · rintro _ _ ⟨⟩
    exact ⟨hTuple, List.cons_ne_nil _ _⟩

theorem exists_fits_of_selectRange
    (hSelect : table.selectRange conditions reversed = .ok selection) :
    ∃ index ∈ table.indices, selection.plan.Fits index := by
  obtain ⟨index, hIndex, -, hWidth, -, hAnswer⟩ := selectRange_eq_ok hSelect
  obtain ⟨groups, hGroups, hShape⟩ := Option.bind_eq_some_iff.mp hAnswer
  obtain ⟨front, back, hColumns, rfl, -⟩ := IndexDefinition.groups?_eq_some hGroups
  obtain ⟨start, stop, hEnds, hKind⟩ := IndexDefinition.shapeOf_ends hShape
  have hFront : front.length ≤ index.width := by simp [IndexDefinition.width, hColumns]
  have hStart : start.length ≤ index.width := hEnds.length_le.1.trans hFront
  have hStop : stop.length ≤ index.width := hEnds.length_le.2.trans hFront
  obtain ⟨⟨width, distinct, shape⟩, ignored⟩ := selection
  refine ⟨index, hIndex, ?_⟩
  rcases hKind with ⟨rfl, -⟩ | rfl
  · exact ⟨rfl, hWidth, List.forall_mem_singleton.mpr hStart, by rintro _ _ ⟨⟩⟩
  · refine ⟨rfl, hWidth, List.forall_mem_append.mpr ⟨?_, ?_⟩, by rintro _ _ ⟨⟩⟩
    · exact fun own hOwn => ValueSource.eq_of_mem_endOf hOwn ▸ hStart
    · exact fun own hOwn => ValueSource.eq_of_mem_endOf hOwn ▸ hStop

theorem length_keySources {values : List Expr} (hSources : keySources index values = .ok sources) :
    sources.length ≤ index.width := by
  unfold keySources at hSources
  split at hSources
  · cases hSources
  · rw [ValueSource.length_ofExprs hSources]
    omega

theorem length_of_mapM_keySources {given : Option (List Expr)} {own : Option (List ValueSource)}
    (hSources : given.mapM (keySources index) = .ok own) :
    ∀ sources ∈ own.toList, sources.length ≤ index.width := by
  cases given with
  | none =>
      cases hSources
      exact List.forall_mem_nil _
  | some values =>
      obtain ⟨sources, hOwn, rfl⟩ := Except.map_eq_ok_iff.mp hSources
      exact List.forall_mem_singleton.mpr (length_keySources hOwn)

/-- Every plan for a table reads the clustering index whole or fits a declared index. -/
theorem Plans.cases (hPlan : table.Plans plan) :
    (∃ reversed, plan.shape = .wholeIndex none reversed) ∨
      ∃ index ∈ table.indices, plan.Fits index := by
  cases hPlan with
  | compiled hCompile =>
      obtain ⟨conditions, hSelect⟩ := exists_select_of_compile hCompile
      rcases select_eq_ok hSelect with ⟨condition, hTuple⟩ | hRange
      · exact .inr (exists_fits_of_selectTuple hTuple)
      · exact .inr (exists_fits_of_selectRange hRange)
  | whole hPlan =>
      rcases planWhole_eq_ok hPlan with ⟨-, rfl⟩ | ⟨index, hIndex, -, rfl⟩
      · exact .inl ⟨_, rfl⟩
      · exact .inr ⟨index, hIndex, rfl, rfl, List.forall_mem_nil _, by rintro _ _ ⟨⟩⟩
  | exact hPlan =>
      simp only [planExact, Except.bind_eq_ok_iff, Except.pure_eq_ok_iff] at hPlan
      obtain ⟨index, hFound, sources, hSources, rfl⟩ := hPlan
      obtain ⟨hIndex, rfl⟩ := indexForPlan_eq_ok hFound
      refine .inr ⟨index, hIndex, rfl, rfl, ?_, by rintro _ _ ⟨⟩⟩
      exact List.forall_mem_singleton.mpr (length_keySources hSources)
  | range hPlan =>
      simp only [planRange, Except.bind_eq_ok_iff, Except.pure_eq_ok_iff] at hPlan
      obtain ⟨index, hFound, start, hStart, stop, hStop, rfl⟩ := hPlan
      obtain ⟨hIndex, rfl⟩ := indexForPlan_eq_ok hFound
      refine .inr ⟨index, hIndex, rfl, rfl, ?_, by rintro _ _ ⟨⟩⟩
      exact List.forall_mem_append.mpr
        ⟨length_of_mapM_keySources hStart, length_of_mapM_keySources hStop⟩

/-- Binding a plan fails only for the first source without a value. -/
theorem Plans.error?_bind (hPlan : table.Plans plan) :
    (plan.bind arguments).error? = ValueSource.missing? arguments plan.shape.sources := by
  rw [Plan.bind, Except.error?_bind_of_ok fun strategy _ => ⟨⟨strategy, plan.distinct⟩, rfl⟩]
  rcases hPlan.cases with ⟨reversed, hShape⟩ | ⟨index, -, hFits⟩
  · rw [hShape]
    rfl
  · exact Plan.error?_bindShape (hFits.width ▸ hFits.short)
      fun name sources hShape => (hFits.leading name sources hShape).2

end Table

end IndexedTable

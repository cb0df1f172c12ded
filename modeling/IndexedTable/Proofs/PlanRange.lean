import IndexedTable.Proofs.KeyLimits
import IndexedTable.Proofs.Satisfaction
import IndexedTable.Proofs.ScanEntries

/-! The range of keys that a plan for comparisons reads. Both ends begin with the values that pin
the leading columns and go on with a bound on one more column, exchanged where that descends;
between them lie the keys whose values pass the conditions that count. -/

namespace IndexedTable

namespace KeyLayout

/-- Only as many values are compared as the shorter list has. -/
theorem lexicographic_take {compareValues : Value → Value → Ordering} {layout : KeyLayout}
    {values us : List Value} :
    layout.lexicographic compareValues (values.take us.length) us =
      layout.lexicographic compareValues values us := by
  induction us generalizing layout values with
  | nil => cases layout <;> cases values <;> rfl
  | cons u us ih =>
      cases values with
      | nil => rfl
      | cons value values =>
          cases layout with
          | nil => rfl
          | cons column columns =>
              rw [List.length_cons, List.take_succ_cons, lexicographic, lexicographic, ih]

/-- Values at or after those of one end of a range, and at or before those of the other. -/
def Between (layout : KeyLayout) (start stop values : List Value) : Prop :=
  layout.keyOrder values start ≠ .lt ∧ layout.keyOrder values stop ≠ .gt

variable {layout : KeyLayout} {given us values : List Value} {limit : KeyLimit}

theorem makeKey_of_coerce? (hus : layout.coerce? given = some us)
    (hPartial : limit.isPartial = false) :
    layout.makeKey given limit = .ok ⟨layout.bytes us ++ limitMark limit⟩ :=
  (makeKey_eq_ok_iff hPartial).mpr ⟨us, hus, rfl⟩

theorem start_le_iff (husFits : layout.Fits us) (hFits : layout.Fits values)
    (hFull : values.length = layout.width) (hMark : limitMark limit = []) :
    (⟨layout.bytes us ++ limitMark limit⟩ : Key) ≤ ⟨layout.bytes values⟩ ↔
      layout.keyOrder values us ≠ .lt := by
  have hLength := length_le_of_fits husFits
  have hSplit := List.take_append_drop us.length values
  have hLess := lt_rangeStart_iff (hSplit ▸ hFits) husFits (by simp; omega)
  rw [hSplit, keyOrder, lexicographic_take] at hLess
  rw [Key.le_iff_not_lt, Key.compare_mk, hMark, List.append_nil]
  exact not_congr hLess

theorem le_stop_iff (husFits : layout.Fits us) (hFits : layout.Fits values)
    (hFull : values.length = layout.width)
    (hLimit : limit = .rangeEnd ∨ (limit = .exact ∧ us.length = layout.width)) :
    (⟨layout.bytes values⟩ : Key) ≤ ⟨layout.bytes us ++ limitMark limit⟩ ↔
      layout.keyOrder values us ≠ .gt := by
  have hLength := length_le_of_fits husFits
  rw [Key.le_iff_not_gt, Key.compare_mk]
  rcases hLimit with rfl | ⟨rfl, hWide⟩
  · have hSplit := List.take_append_drop us.length values
    have hMore := gt_rangeEnd_iff (hSplit ▸ hFits) husFits (by simp; omega)
    rw [hSplit, keyOrder, lexicographic_take] at hMore
    exact not_congr hMore
  · have hSettled := settled?_bytes hFits husFits (by omega)
    have hMark : limitMark .exact = [] := rfl
    rw [hMark, List.append_nil, compare_of_settled hSettled]

end KeyLayout

theorem ValueSource.resolveAll_cons_eq_ok {arguments : List Value} {source : ValueSource}
    {sources : List ValueSource} {given : List Value} :
    resolveAll arguments (source :: sources) = .ok given ↔
      ∃ first others, source.resolve arguments = .ok first ∧
        resolveAll arguments sources = .ok others ∧ given = first :: others := by
  simp only [resolveAll, Except.bind_eq_ok_iff, Except.pure_eq_ok_iff]
  constructor
  · rintro ⟨first, hFirst, others, hOthers, rfl⟩
    exact ⟨first, others, hFirst, hOthers, rfl⟩
  · rintro ⟨first, others, hFirst, hOthers, rfl⟩
    exact ⟨first, hFirst, others, hOthers, rfl⟩

/-- The comparison that bounds the start of a range over a key column. -/
def Comparison.atStart : Direction → Comparison
  | .ascending => .atLeast
  | .descending => .atMost

/-- The comparison that bounds the stop of a range over a key column. -/
def Comparison.atStop : Direction → Comparison
  | .ascending => .atMost
  | .descending => .atLeast

/-- The sources of the values at the two ends of the range over some leading key columns. -/
inductive Condition.Ends (conditions : List Condition) :
    List KeyPart → List ValueSource → List ValueSource → Prop where
  | none : Ends conditions [] [] []
  | pinned {part : KeyPart} {equality : Condition} {parts : List KeyPart}
      {start stop : List ValueSource}
      (hEqual : first? (on conditions part.column) .equal = some equality)
      (hRest : Ends conditions parts start stop) :
      Ends conditions (part :: parts) (equality.source :: start) (equality.source :: stop)
  | bounded {part : KeyPart} (hEqual : first? (on conditions part.column) .equal = .none) :
      Ends conditions [part]
        ((first? (on conditions part.column) (.atStart part.direction)).map (·.source)).toList
        ((first? (on conditions part.column) (.atStop part.direction)).map (·.source)).toList

theorem Condition.Ends.length_le {conditions : List Condition} {parts : List KeyPart}
    {start stop : List ValueSource} (hEnds : Ends conditions parts start stop) :
    start.length ≤ parts.length ∧ stop.length ≤ parts.length := by
  induction hEnds with
  | none => exact ⟨Nat.le_refl _, Nat.le_refl _⟩
  | pinned _ _ ih => exact ⟨Nat.succ_le_succ ih.1, Nat.succ_le_succ ih.2⟩
  | bounded _ => exact ⟨Option.length_toList_le, Option.length_toList_le⟩

/-- An end of a range with some sources; no sources, no end. -/
def ValueSource.endOf (sources : List ValueSource) : Option (List ValueSource) :=
  if sources.isEmpty then none else some sources

theorem ValueSource.eq_of_mem_endOf {sources own : List ValueSource}
    (hOwn : own ∈ (endOf sources).toList) : own = sources := by
  unfold endOf at hOwn
  split at hOwn
  · cases hOwn
  · exact List.mem_singleton.mp hOwn

namespace IndexDefinition

variable {index : IndexDefinition} {conditions : List Condition} {reversed : Bool}

/-- A plan for comparisons reads the range between the two ends, or the keys that begin with the
values of both. -/
theorem shapeOf_ends {parts : List KeyPart} {pinned : List ValueSource} {shape : PlanShape}
    {ignored : List IgnoredConditions}
    (hShape : index.shapeOf reversed pinned
      (parts.map fun part => (part, Condition.on conditions part.column)) = some (shape, ignored)) :
    ∃ start stop, Condition.Ends conditions parts start stop ∧
      ((shape = .exact index.name (pinned ++ start) reversed ∧ stop = start) ∨
        shape = .range index.name (ValueSource.endOf (pinned ++ start))
          (ValueSource.endOf (pinned ++ stop)) reversed) := by
  induction parts generalizing pinned shape ignored with
  | nil => cases hShape
  | cons part parts ih =>
      rw [List.map_cons, shapeOf] at hShape
      cases hEqual : Condition.first? (Condition.on conditions part.column) .equal with
      | some equality =>
          simp only [hEqual] at hShape
          cases parts with
          | nil =>
              obtain ⟨rfl, -⟩ := Prod.mk.inj (Option.some.inj hShape)
              exact ⟨_, _, .pinned hEqual .none, .inl ⟨rfl, rfl⟩⟩
          | cons next parts =>
              obtain ⟨⟨inner, others⟩, hInner, hSame⟩ := Option.map_eq_some_iff.mp hShape
              obtain ⟨rfl, -⟩ := Prod.mk.inj hSame
              obtain ⟨start, stop, hEnds, hKind⟩ := ih hInner
              simp only [List.append_assoc, List.singleton_append] at hKind
              refine ⟨_, _, .pinned hEqual hEnds, hKind.imp_left fun ⟨hExact, hSame⟩ => ?_⟩
              exact ⟨hExact, congrArg _ hSame⟩
      | none =>
          simp only [hEqual] at hShape
          cases parts with
          | cons next parts => cases hShape
          | nil =>
              obtain ⟨rfl, -⟩ := Prod.mk.inj (Option.some.inj hShape)
              refine ⟨_, _, .bounded hEqual, .inr ?_⟩
              cases part.direction <;> rfl

/-- The groups of conditions stand on leading key columns, and no condition stands elsewhere. -/
theorem groups?_eq_some {groups : List (KeyPart × List Condition)}
    (hGroups : index.groups? conditions = some groups) : ∃ front back,
    index.columns = front ++ back ∧
      groups = front.map (fun part => (part, Condition.on conditions part.column)) ∧
      ∀ condition ∈ conditions, ∃ part ∈ front, part.column = condition.field := by
  simp only [groups?] at hGroups
  split at hGroups
  · rename_i hHolds
    obtain ⟨hCovered, -⟩ := Bool.and_eq_true_iff.mp hHolds
    rw [Option.some.injEq, List.takeWhile_map] at hGroups
    refine ⟨_, _, List.takeWhile_append_dropWhile.symm, hGroups.symm, ?_⟩
    rw [List.takeWhile_map] at hCovered
    intro condition hCondition
    have hGroup := List.all_eq_true.mp hCovered condition hCondition
    rw [List.any_map, List.any_eq_true] at hGroup
    obtain ⟨part, hPart, hField⟩ := hGroup
    exact ⟨part, hPart, by simpa using hField⟩
  · cases hGroups

end IndexDefinition

theorem KeyLayout.coerce?_nil {layout : KeyLayout} : layout.coerce? [] = some [] := by
  cases layout <;> rfl

namespace Condition

variable {conditions : List Condition} {arguments : List Value} {column : KeyColumn}
  {layout : KeyLayout} {value : Value} {values us ue givenStart givenStop : List Value}

theorem accepts_iff {own : Condition} {comparison : Comparison} {type : DataType}
    {given bound : Value} {compareValues : Value → Value → Ordering}
    (hKind : own.kind = .compare comparison)
    (hGiven : own.source.resolve arguments = .ok given) (hBound : given.coerce? type = some bound) :
    own.Accepts compareValues type arguments value ↔
      comparison.accepts (compareValues value bound) = true := by
  constructor
  · rintro ⟨_, _, _, hOwnKind, hOwnGiven, hOwnBound, hAccepts⟩
    cases hKind.symm.trans hOwnKind
    cases hGiven.symm.trans hOwnGiven
    cases hBound.symm.trans hOwnBound
    exact hAccepts
  · exact fun hAccepts => ⟨_, _, _, hKind, hGiven, hBound, hAccepts⟩

theorem forall_effective_iff {group : List Condition} {P : Condition → Prop} (direction : Direction)
    (hEqual : first? group .equal = none) :
    (∀ own ∈ effective group, P own) ↔
      (∀ own ∈ (first? group (.atStart direction)).toList, P own) ∧
        ∀ own ∈ (first? group (.atStop direction)).toList, P own := by
  rw [effective, hEqual, List.forall_mem_append]
  cases direction with
  | ascending => rfl
  | descending => exact and_comm

/-- A bound at one end of a range admits the values that pass its condition; no bound admits all. -/
theorem limit_iff {group : List Condition} {comparison : Comparison} {excluded : Ordering}
    {given : List Value}
    (hGiven : ValueSource.resolveAll arguments
      ((first? group comparison).map (·.source)).toList = .ok given)
    (hus : KeyLayout.coerce? (column :: layout) given = some us) (hOpen : .eq ≠ excluded)
    (hExcluded : ∀ o, column.direction.apply o ≠ excluded ↔ comparison.accepts o = true) :
    KeyLayout.keyOrder (column :: layout) (value :: values) us ≠ excluded ↔
      ∀ own ∈ (first? group comparison).toList,
        own.Accepts Value.keyOrder column.type arguments value := by
  cases hFound : first? group comparison with
  | none =>
      rw [hFound] at hGiven
      cases hGiven
      cases hus
      simpa [KeyLayout.keyOrder, KeyLayout.lexicographic] using hOpen
  | some own =>
      rw [hFound] at hGiven
      obtain ⟨first, others, hFirst, hOthers, rfl⟩ := ValueSource.resolveAll_cons_eq_ok.mp hGiven
      cases hOthers
      obtain ⟨u, rest, hu, hRest, rfl⟩ := KeyLayout.coerce?_cons_eq_some.mp hus
      obtain rfl := Option.some.inj (KeyLayout.coerce?_nil.symm.trans hRest)
      have hSingle : KeyLayout.keyOrder (column :: layout) (value :: values) [u] =
          column.direction.apply (value.keyOrder u) := by
        cases layout <;> cases values <;> exact Ordering.then_eq
      rw [hSingle, hExcluded, Option.toList_some, List.forall_mem_singleton,
        accepts_iff (first?_eq_some hFound).2 hFirst hu]

theorem between_cons_iff {u : Value} :
    KeyLayout.Between (column :: layout) (u :: us) (u :: ue) (value :: values) ↔
      value.keyOrder u = .eq ∧ layout.Between us ue values := by
  simp only [KeyLayout.Between, KeyLayout.keyOrder, KeyLayout.lexicographic]
  cases value.keyOrder u <;> cases column.direction <;> simp [Direction.apply]

/-- Between the ends of a range lie the values that pass the conditions that count. -/
theorem Ends.between_iff {parts others : List KeyPart} {start stop : List ValueSource}
    (hEnds : Ends conditions parts start stop)
    (hDirections : List.Forall₂ (fun (part : KeyPart) (column : KeyColumn) =>
      column.direction = part.direction) (parts ++ others) layout)
    (hStart : ValueSource.resolveAll arguments start = .ok givenStart)
    (hStop : ValueSource.resolveAll arguments stop = .ok givenStop)
    (hus : layout.coerce? givenStart = some us) (hue : layout.coerce? givenStop = some ue)
    (hFull : values.length = layout.width) :
    layout.Between us ue values ↔
      KeyLayout.Accepts Value.keyOrder conditions arguments parts layout values := by
  induction hEnds generalizing layout values us ue givenStart givenStop with
  | none =>
      cases hStart
      cases hStop
      obtain rfl := Option.some.inj (KeyLayout.coerce?_nil.symm.trans hus)
      obtain rfl := Option.some.inj (KeyLayout.coerce?_nil.symm.trans hue)
      cases layout <;> cases values <;>
        simp [KeyLayout.Between, KeyLayout.keyOrder, KeyLayout.lexicographic, KeyLayout.Accepts]
  | @pinned part equality parts start stop hEqual hRest ih =>
      obtain ⟨column, columns, hDirection, hOthers, rfl⟩ :=
        List.forall₂_cons_left_iff.mp hDirections
      obtain ⟨given, restStart, hGiven, hRestStart, rfl⟩ :=
        ValueSource.resolveAll_cons_eq_ok.mp hStart
      obtain ⟨_, restStop, hSame, hRestStop, rfl⟩ := ValueSource.resolveAll_cons_eq_ok.mp hStop
      obtain rfl := Except.ok.inj (hGiven.symm.trans hSame)
      obtain ⟨u, vs, hu, hvs, rfl⟩ := KeyLayout.coerce?_cons_eq_some.mp hus
      obtain ⟨_, ws, hSameBound, hws, rfl⟩ := KeyLayout.coerce?_cons_eq_some.mp hue
      obtain rfl := Option.some.inj (hu.symm.trans hSameBound)
      cases values with
      | nil => cases hFull
      | cons value values =>
          have hTail := ih hOthers hRestStart hRestStop hvs hws (Nat.succ.inj hFull)
          have hOwn : equality.Accepts Value.keyOrder column.type arguments value ↔
              Comparison.equal.accepts (value.keyOrder u) = true :=
            accepts_iff (first?_eq_some hEqual).2 hGiven hu
          rw [between_cons_iff, hTail, KeyLayout.Accepts, effective, hEqual]
          simp [hOwn, Comparison.accepts]
  | @bounded part hEqual =>
      obtain ⟨column, columns, hDirection, hOthers, rfl⟩ :=
        List.forall₂_cons_left_iff.mp hDirections
      cases values with
      | nil => cases hFull
      | cons value values =>
          rw [KeyLayout.Accepts, forall_effective_iff part.direction hEqual, ← hDirection]
          rw [← hDirection] at hStart hStop
          have hAfter := @limit_iff arguments column columns value values us _ _ .lt _ hStart hus
            (by decide) fun o => by cases column.direction <;> cases o <;> decide
          have hBefore := @limit_iff arguments column columns value values ue _ _ .gt _ hStop hue
            (by decide) fun o => by cases column.direction <;> cases o <;> decide
          rw [KeyLayout.Between, hAfter, hBefore]
          simp only [KeyLayout.Accepts, and_true]

/-- Whether every value that a part is bound to converts to the type of its key column. -/
def Converts (conditions : List Condition) (arguments : List Value) (part : KeyPart)
    (column : KeyColumn) : Prop :=
  ∀ own ∈ effective (on conditions part.column), ∀ given,
    own.source.resolve arguments = .ok given → (given.coerce? column.type).isSome

theorem coerce?_limit {bound : Option Condition} {given : List Value}
    (hConverts : ∀ own ∈ bound.toList, ∀ given, own.source.resolve arguments = .ok given →
      (given.coerce? column.type).isSome)
    (hGiven : ValueSource.resolveAll arguments (bound.map (·.source)).toList = .ok given) :
    ∃ us, KeyLayout.coerce? (column :: layout) given = some us := by
  cases bound with
  | none =>
      cases hGiven
      exact ⟨_, KeyLayout.coerce?_nil⟩
  | some own =>
      obtain ⟨first, others, hFirst, hOthers, rfl⟩ := ValueSource.resolveAll_cons_eq_ok.mp hGiven
      cases hOthers
      have hConverts := hConverts own (List.mem_singleton_self _) first hFirst
      obtain ⟨u, hu⟩ := Option.isSome_iff_exists.mp hConverts
      exact ⟨_, KeyLayout.coerce?_cons_eq_some.mpr ⟨u, [], hu, KeyLayout.coerce?_nil, rfl⟩⟩

/-- The values at both ends convert if those of the conditions that count do. -/
theorem Ends.coerce? {parts others : List KeyPart} {start stop : List ValueSource}
    (hEnds : Ends conditions parts start stop)
    (hConverts : List.Forall₂ (Converts conditions arguments) (parts ++ others) layout)
    (hStart : ValueSource.resolveAll arguments start = .ok givenStart)
    (hStop : ValueSource.resolveAll arguments stop = .ok givenStop) :
    (∃ us, layout.coerce? givenStart = some us) ∧ ∃ ue, layout.coerce? givenStop = some ue := by
  induction hEnds generalizing layout givenStart givenStop with
  | none =>
      cases hStart
      cases hStop
      exact ⟨⟨_, KeyLayout.coerce?_nil⟩, ⟨_, KeyLayout.coerce?_nil⟩⟩
  | @pinned part equality parts start stop hEqual hRest ih =>
      obtain ⟨column, columns, hConvert, hOthers, rfl⟩ := List.forall₂_cons_left_iff.mp hConverts
      obtain ⟨given, restStart, hGiven, hRestStart, rfl⟩ :=
        ValueSource.resolveAll_cons_eq_ok.mp hStart
      obtain ⟨_, restStop, hSame, hRestStop, rfl⟩ := ValueSource.resolveAll_cons_eq_ok.mp hStop
      obtain rfl := Except.ok.inj (hGiven.symm.trans hSame)
      obtain ⟨⟨us, hus⟩, ue, hue⟩ := ih hOthers hRestStart hRestStop
      rw [Converts, effective, hEqual, List.forall_mem_singleton] at hConvert
      obtain ⟨u, hu⟩ := Option.isSome_iff_exists.mp (hConvert given hGiven)
      exact ⟨⟨_, KeyLayout.coerce?_cons_eq_some.mpr ⟨u, us, hu, hus, rfl⟩⟩,
        ⟨_, KeyLayout.coerce?_cons_eq_some.mpr ⟨u, ue, hu, hue, rfl⟩⟩⟩
  | @bounded part hEqual =>
      obtain ⟨column, columns, hConvert, hOthers, rfl⟩ := List.forall₂_cons_left_iff.mp hConverts
      rw [Converts, forall_effective_iff part.direction hEqual] at hConvert
      exact ⟨coerce?_limit hConvert.1 hStart, coerce?_limit hConvert.2 hStop⟩

end Condition

/-- Key columns without conditions accept every value. -/
theorem KeyLayout.accepts_append_iff {compareValues : Value → Value → Ordering}
    {conditions : List Condition} {arguments : List Value} {front back : List KeyPart}
    {layout : KeyLayout} {values : List Value}
    (hFree : ∀ part ∈ back, Condition.on conditions part.column = []) :
    Accepts compareValues conditions arguments (front ++ back) layout values ↔
      Accepts compareValues conditions arguments front layout values := by
  induction front generalizing layout values with
  | nil =>
      induction back generalizing layout values with
      | nil => rfl
      | cons part back ih =>
          obtain ⟨hPart, hBack⟩ := List.forall_mem_cons.mp hFree
          cases layout <;> cases values <;>
            simp_all [Accepts, Condition.effective, Condition.first?]
  | cons part front ih =>
      cases layout <;> cases values <;> simp [Accepts, ih]

end IndexedTable

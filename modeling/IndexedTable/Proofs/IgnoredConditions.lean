import IndexedTable.Proofs.Conjuncts
import IndexedTable.Proofs.IndexChoice
import IndexedTable.Proofs.PlanBinding
import Mathlib.Algebra.BigOperators.Group.Finset.Piecewise
import Mathlib.Algebra.GroupWithZero.Nat

/-! What becomes of the conditions that compete for one place. A plan uses those that count on each
key column, and what is reported beside it is the number of the others, so that no condition is lost
from sight: conditions used and conditions reported make up the predicate. -/

namespace IndexedTable

mutual

/-- The number of comparisons in an expression, at any depth. -/
def Expr.comparisons : Expr → Nat
  | .binary op left right =>
    (if op.isComparison then 1 else 0) + comparisons left + comparisons right
  | .unary _ operand => comparisons operand
  | .contains haystack needle => comparisons haystack + comparisons needle
  | .call _ arguments => comparisonsOfAll arguments
  | _ => 0

/-- The number of comparisons in several expressions. -/
def Expr.comparisonsOfAll : List Expr → Nat
  | [] => 0
  | first :: rest => comparisons first + comparisonsOfAll rest

end

/-- The number of conditions that a scan uses, if the last key column with conditions is at a place:
one for every value of a match; in a range one for every column before the last, where both ends
have the same value, and one for each end that goes on with a bound. -/
def PlanShape.conditionsUsed (last : Nat) : PlanShape → Nat
  | wholeIndex _ _ => 0
  | exact _ values _ | leading _ values => values.length
  | range _ start stop _ =>
    last + ((start.getD []).length - last) + ((stop.getD []).length - last)

namespace Condition

/-- The number of conditions with the comparison. -/
def asking (group : List Condition) (comparison : Comparison) : Nat :=
  (group.map (·.kind)).count (.compare comparison)

/-- A lower and an upper bound, in either order, and nothing else. -/
def TwoSided (group : List Condition) : Prop :=
  (group.map (·.kind)).Perm [.compare .atLeast, .compare .atMost]

/-- The number of conditions on a field that count. -/
def used (conditions : List Condition) (field : String) : Nat :=
  (effective (on conditions field)).length

/-- The number of conditions on a field that do not count. -/
def surplus (conditions : List Condition) (field : String) : Nat :=
  (on conditions field).length - used conditions field

variable {group conditions : List Condition} {comparison : Comparison}

theorem length_first? :
    (first? group comparison).toList.length = min 1 (asking group comparison) := by
  cases hFirst : first? group comparison with
  | none =>
      have hAbsent : asking group comparison = 0 := by
        rw [asking, List.count_eq_zero]
        simpa [first?] using hFirst
      simp [hAbsent]
  | some condition =>
      obtain ⟨hMem, hKind⟩ := first?_eq_some hFirst
      have hPresent : 0 < asking group comparison :=
        List.count_pos_iff.mpr (hKind ▸ List.mem_map_of_mem hMem)
      rw [Option.toList_some, List.length_singleton]
      omega

theorem length_effective : (effective group).length =
    if 0 < asking group .equal then 1
    else min 1 (asking group .atLeast) + min 1 (asking group .atMost) := by
  have hEqual := @length_first? group .equal
  rw [effective]
  cases hFirst : first? group .equal with
  | none =>
      rw [hFirst, Option.toList_none, List.length_nil] at hEqual
      rw [if_neg (by omega), List.length_append, length_first?, length_first?]
  | some equality =>
      rw [hFirst, Option.toList_some, List.length_singleton] at hEqual
      rw [if_pos (by omega), List.length_singleton]

theorem TwoSided.first?_eq_none (hTwo : TwoSided group) : first? group .equal = none := by
  rw [first?, List.find?_eq_none]
  intro condition hCondition
  have hKind := hTwo.mem_iff.mp (List.mem_map_of_mem hCondition)
  rcases List.mem_pair.mp hKind with hLower | hUpper
  · simp [hLower]
  · simp [hUpper]

section Comparisons

variable (hCompare : ∀ condition ∈ group, ∃ comparison, condition.kind = .compare comparison)

include hCompare

theorem length_eq_asking :
    group.length = asking group .equal + asking group .atLeast + asking group .atMost := by
  induction group with
  | nil => rfl
  | cons condition rest ih =>
      obtain ⟨⟨comparison, hKind⟩, hRest⟩ := List.forall_mem_cons.mp hCompare
      have hLength := ih hRest
      simp only [asking, List.map_cons, List.length_cons, hKind] at hLength ⊢
      cases comparison <;> simp <;> omega

theorem length_effective_le : (effective group).length ≤ group.length := by
  have hLength := length_eq_asking hCompare
  rw [length_effective]
  split <;> omega

theorem twoSided_iff : TwoSided group ↔
    asking group .equal = 0 ∧ asking group .atLeast = 1 ∧ asking group .atMost = 1 := by
  rw [TwoSided, List.perm_iff_count]
  constructor
  · intro hCount
    exact ⟨hCount _, hCount _, hCount _⟩
  · rintro ⟨hEqual, hLower, hUpper⟩ (comparison | _)
    · cases comparison with
      | equal => exact hEqual
      | atLeast => exact hLower
      | atMost => exact hUpper
    · have hAbsent : ConditionKind.containment ∉ group.map (·.kind) := by
        intro hMem
        obtain ⟨condition, hCondition, hKind⟩ := List.mem_map.mp hMem
        obtain ⟨comparison, hOther⟩ := hCompare condition hCondition
        cases hKind.symm.trans hOther
      exact List.count_eq_zero.mpr hAbsent

/-- All of the conditions on a field count only if there is one, or one bound on either side. -/
theorem length_le_effective_iff (hNonempty : group ≠ []) :
    group.length ≤ (effective group).length ↔ group.length = 1 ∨ TwoSided group := by
  have hLength := length_eq_asking hCompare
  have hPositive := List.length_pos_iff.mpr hNonempty
  rw [twoSided_iff hCompare, length_effective]
  split <;> omega

end Comparisons

section Fields

variable (hCompare : ∀ condition ∈ conditions, ∃ comparison, condition.kind = .compare comparison)
  (field : String)

include hCompare

theorem compare_on : ∀ condition ∈ on conditions field,
    ∃ comparison, condition.kind = .compare comparison :=
  fun condition hCondition => hCompare condition (List.mem_of_mem_filter hCondition)

theorem length_on :
    (on conditions field).length = used conditions field + surplus conditions field :=
  (Nat.add_sub_cancel' (length_effective_le (compare_on hCompare field))).symm

theorem surplus_eq_zero_iff (hMentioned : on conditions field ≠ []) :
    surplus conditions field = 0 ↔
      (on conditions field).length = 1 ∨ TwoSided (on conditions field) := by
  rw [surplus, Nat.sub_eq_zero_iff_le]
  exact length_le_effective_iff (compare_on hCompare field) hMentioned

end Fields

/-- Conditions are counted field by field. -/
theorem sum_length_on {names : List String} (hDistinct : names.Nodup)
    (hWithin : ∀ condition ∈ conditions, condition.field ∈ names) :
    (names.map fun name => (on conditions name).length).sum = conditions.length := by
  rw [← List.sum_toFinset _ hDistinct]
  induction conditions with
  | nil => simp [on]
  | cons condition rest ih =>
      obtain ⟨hField, hRest⟩ := List.forall_mem_cons.mp hWithin
      have hOn (name : String) : (on (condition :: rest) name).length =
          (on rest name).length + if condition.field = name then 1 else 0 := by
        rw [on, List.filter_cons]
        by_cases hSame : condition.field = name <;> simp [hSame, on]
      simp only [hOn]
      rw [Finset.sum_add_distrib, ih hRest, Finset.sum_ite_eq,
        if_pos (List.mem_toFinset.mpr hField), List.length_cons]

end Condition

/-- The numbers of comparisons and of conditions agree. -/
theorem Expr.comparisons_of_conjoins {predicate : Expr} {conditions : List Condition}
    (hPredicate : predicate.Conjoins conditions) : predicate.comparisons = conditions.length := by
  induction hPredicate with
  | fieldFirst name comparison source => cases comparison <;> cases source <;> rfl
  | fieldLast name comparison source => cases comparison <;> cases source <;> rfl
  | and _ _ ihLeft ihRight =>
      rw [comparisons, ihLeft, ihRight, List.length_append]
      exact congrArg (· + _) (Nat.zero_add _)

namespace IndexDefinition

variable {index : IndexDefinition} {conditions : List Condition} {reversed : Bool} {last : Nat}

/-- Whether a field comes before another one in the key. -/
def Precedes (index : IndexDefinition) (field other : String) : Prop :=
  ∃ place later, place < later ∧ index.position? field = some place ∧
    index.position? other = some later

theorem sum_ignoring (field : String) (count : Nat) :
    ((index.ignoring field count).map (·.count)).sum = count := by
  unfold ignoring
  split
  next hNone => exact hNone.symm
  next => exact Nat.add_zero count

theorem mem_ignoring {field : String} {count : Nat} {warning : IgnoredConditions} :
    warning ∈ index.ignoring field count ↔ 0 < count ∧ warning = ⟨field, index.name, count⟩ := by
  unfold ignoring
  split
  next hNone => simp [hNone]
  next hSome => simp [Nat.pos_of_ne_zero hSome]

theorem length_boundValues (pinned : List ValueSource) (bound : Option Condition) :
    ((boundValues pinned bound).getD []).length = pinned.length + bound.toList.length := by
  unfold boundValues
  cases bound <;> cases pinned <;> simp

/-- A range uses one condition for every pinned column and one for each of its bounds. -/
theorem conditionsUsed_rangeShape (direction : Direction) (pinned : List ValueSource)
    (lower upper : Option Condition) :
    (index.rangeShape direction pinned lower upper reversed).conditionsUsed pinned.length =
      pinned.length + (lower.toList ++ upper.toList).length := by
  cases direction <;>
    simp only [rangeShape, PlanShape.conditionsUsed, length_boundValues, List.length_append] <;>
    omega

/-- What is used of the conditions on some leading key columns, and what is reported. -/
theorem shapeOf_accounts {parts : List KeyPart} {pinned : List ValueSource} {shape : PlanShape}
    {ignored : List IgnoredConditions}
    (hShape : index.shapeOf reversed pinned
      (parts.map fun part => (part, Condition.on conditions part.column)) = some (shape, ignored)) :
    shape.conditionsUsed (pinned.length + (parts.length - 1)) = pinned.length +
        (parts.map fun part => Condition.used conditions part.column).sum ∧
      ignored = parts.flatMap fun part =>
        index.ignoring part.column (Condition.surplus conditions part.column) := by
  induction parts generalizing pinned shape ignored with
  | nil => cases hShape
  | cons part parts ih =>
      rw [List.map_cons, shapeOf] at hShape
      cases hEqual : Condition.first? (Condition.on conditions part.column) .equal with
      | some equality =>
          have hField : equality.field = part.column := by
            simpa using (List.mem_filter.mp (Condition.first?_eq_some hEqual).1).2
          have hOne : Condition.used conditions part.column = 1 := by
            rw [Condition.used, Condition.effective, hEqual, List.length_singleton]
          have hSurplus : Condition.surplus conditions part.column =
              (Condition.on conditions part.column).length - 1 := by
            rw [Condition.surplus, hOne]
          simp only [hEqual, hField] at hShape
          cases parts with
          | nil =>
              obtain ⟨rfl, rfl⟩ := Prod.mk.inj (Option.some.inj hShape)
              simp [PlanShape.conditionsUsed, hSurplus, hOne]
          | cons next parts =>
              obtain ⟨⟨inner, others⟩, hInner, hSame⟩ := Option.map_eq_some_iff.mp hShape
              obtain ⟨rfl, rfl⟩ := Prod.mk.inj hSame
              obtain ⟨hUsed, rfl⟩ := ih hInner
              rw [List.length_append, List.length_singleton, Nat.add_right_comm] at hUsed
              refine ⟨?_, ?_⟩
              · rw [List.map_cons, List.sum_cons, hOne, ← Nat.add_assoc]
                exact hUsed
              · simp only [List.flatMap_cons, hSurplus]
      | none =>
          have hBounds : Condition.used conditions part.column =
              ((Condition.first? (Condition.on conditions part.column) .atLeast).toList ++
                (Condition.first? (Condition.on conditions part.column) .atMost).toList).length := by
            rw [Condition.used, Condition.effective, hEqual]
          simp only [hEqual] at hShape
          cases parts with
          | cons next parts => cases hShape
          | nil =>
              obtain ⟨rfl, rfl⟩ := Prod.mk.inj (Option.some.inj hShape)
              refine ⟨?_, ?_⟩
              · rw [List.map_singleton, List.sum_singleton, hBounds]
                exact conditionsUsed_rangeShape _ _ _ _
              · rw [List.flatMap_singleton, Condition.surplus, hBounds, List.length_append]

/-- The plan for an answer uses the conditions that count and reports the others. -/
theorem answer?_accounts (hDistinct : (index.columns.map (·.column)).Nodup) {shape : PlanShape}
    {ignored : List IgnoredConditions} (hSuits : index.Suits conditions last)
    (hAnswer : index.answer? conditions reversed = some (shape, ignored)) :
    shape.conditionsUsed last = ((index.columns.take (last + 1)).map fun part =>
        Condition.used conditions part.column).sum ∧
      ignored = (index.columns.take (last + 1)).flatMap fun part =>
        index.ignoring part.column (Condition.surplus conditions part.column) := by
  obtain ⟨part, hPart⟩ := hSuits.exists_part hDistinct
  have hLast := (List.getElem?_eq_some_iff.mp hPart).1
  obtain ⟨⟨hMentioned, hWithin⟩, -⟩ := (suits_iff hDistinct hSuits.standard hLast).mp hSuits
  have hGroups := (groups?_eq_some_iff hDistinct).mpr ⟨last, hLast, hMentioned, hWithin, rfl⟩
  rw [answer?, hGroups] at hAnswer
  obtain ⟨hUsed, hIgnored⟩ := shapeOf_accounts hAnswer
  have hLength : (index.columns.take (last + 1)).length = last + 1 :=
    List.length_take_of_le hLast
  rw [hLength, List.length_nil, Nat.zero_add, Nat.zero_add] at hUsed
  exact ⟨hUsed, hIgnored⟩

theorem pairwise_precedes (hDistinct : (index.columns.map (·.column)).Nodup) :
    index.columns.Pairwise fun part other => index.Precedes part.column other.column := by
  rw [List.pairwise_iff_getElem]
  intro place later hPlace hLater hBefore
  have hAt (i : Nat) (hi : i < index.columns.length) :
      index.position? (index.columns[i]).column = some i :=
    (position?_eq_some_iff hDistinct).mpr ⟨_, List.getElem?_eq_getElem hi, rfl⟩
  exact ⟨place, later, hBefore, hAt place hPlace, hAt later hLater⟩

end IndexDefinition

/-- A report on the conditions on one key column of the index that do not count. -/
structure IgnoredConditions.Reports (warning : IgnoredConditions) (index : IndexDefinition)
    (conditions : List Condition) : Prop where
  name : warning.index = index.name
  key : (index.position? warning.field).isSome
  positive : 0 < warning.count
  others : warning.count = Condition.surplus conditions warning.field

/-- Nothing is lost of some conditions that are answered from an index, the last of whose key
columns mentioned is at a place. -/
structure Selection.Accounts (selection : Selection) (conditions : List Condition)
    (index : IndexDefinition) (last : Nat) (reversed : Bool) : Prop where
  total : conditions.length =
    selection.plan.shape.conditionsUsed last + (selection.ignored.map (·.count)).sum
  reports : ∀ warning ∈ selection.ignored, warning.Reports index conditions
  ascending : selection.ignored.Pairwise fun earlier later =>
    index.Precedes earlier.field later.field
  /-- Nothing is reported when every field has one condition, where the last one of a range may have
  a bound on either side. -/
  silent : selection.ignored = [] ↔ ∀ condition ∈ conditions,
    (Condition.on conditions condition.field).length = 1 ∨
      index.position? condition.field = some last ∧
        (∃ start stop, selection.plan.shape = .range index.name start stop reversed) ∧
        Condition.TwoSided (Condition.on conditions condition.field)

namespace IndexDefinition

variable {index : IndexDefinition} {conditions : List Condition} {reversed : Bool} {last : Nat}
  (hCompare : ∀ condition ∈ conditions, ∃ comparison, condition.kind = .compare comparison)

theorem sum_flatMap_ignoring (parts : List KeyPart) (count : KeyPart → Nat) :
    ((parts.flatMap fun part => index.ignoring part.column (count part)).map (·.count)).sum =
      (parts.map count).sum := by
  induction parts with
  | nil => rfl
  | cons part parts ih =>
      rw [List.flatMap_cons, List.map_append, List.sum_append, sum_ignoring, ih, List.map_cons,
        List.sum_cons]

include hCompare in
theorem sum_used_add_surplus {parts : List KeyPart} (hDistinct : (parts.map (·.column)).Nodup)
    (hWithin : ∀ condition ∈ conditions, ∃ part ∈ parts, part.column = condition.field) :
    conditions.length =
      (parts.map fun part => Condition.used conditions part.column).sum +
        (parts.map fun part => Condition.surplus conditions part.column).sum := by
  have hFields : ∀ condition ∈ conditions, condition.field ∈ parts.map (·.column) :=
    fun condition hCondition => List.mem_map.mpr (hWithin condition hCondition)
  rw [← Condition.sum_length_on hDistinct hFields, List.map_map, ← List.sum_map_add]
  simp only [Function.comp_def, Condition.length_on hCompare]

variable (hDistinct : (index.columns.map (·.column)).Nodup)

include hDistinct

/-- A column with a bound on either side and no other condition is the last one of a range. -/
theorem range_of_twoSided {condition : Condition} (hSuits : index.Suits conditions last)
    (hCondition : condition ∈ conditions)
    (hTwo : Condition.TwoSided (Condition.on conditions condition.field)) {part : KeyPart}
    (hPart : index.columns[last]? = some part) :
    index.position? condition.field = some last ∧ ∃ start stop,
      index.shapeAt conditions last part reversed = .range index.name start stop reversed := by
  obtain ⟨place, hPlace, hPosition⟩ := hSuits.within condition hCondition
  have hUnpinned : index.leftmost? conditions place .equal = none := by
    obtain ⟨own, hOwn, hField⟩ := (position?_eq_some_iff hDistinct).mp hPosition
    rw [leftmost?_eq hDistinct, hOwn, Option.bind_some, hField, hTwo.first?_eq_none,
      Option.map_none]
  have hSame : place = last := by
    by_contra hOther
    obtain ⟨equality, hMem, hEqual⟩ := hSuits.pinned place (by omega)
    rw [leftmost?, Option.map_eq_none_iff, List.find?_eq_none] at hUnpinned
    exact hUnpinned equality hMem (by simpa using hEqual)
  subst hSame
  exact ⟨hPosition, _, _, by rw [shapeAt, hUnpinned]⟩

include hCompare in
theorem silent_iff (hSuits : index.Suits conditions last) {part : KeyPart}
    (hPart : index.columns[last]? = some part) :
    ((index.columns.take (last + 1)).flatMap fun part =>
        index.ignoring part.column (Condition.surplus conditions part.column)) = [] ↔
      ∀ condition ∈ conditions,
        (Condition.on conditions condition.field).length = 1 ∨
          index.position? condition.field = some last ∧
            (∃ start stop, index.shapeAt conditions last part reversed =
              .range index.name start stop reversed) ∧
            Condition.TwoSided (Condition.on conditions condition.field) := by
  have hLast := (List.getElem?_eq_some_iff.mp hPart).1
  obtain ⟨⟨hMentioned, hWithin⟩, -⟩ := (suits_iff hDistinct hSuits.standard hLast).mp hSuits
  have hSilent (field : String) (hField : Condition.on conditions field ≠ []) :
      index.ignoring field (Condition.surplus conditions field) = [] ↔
        (Condition.on conditions field).length = 1 ∨
          Condition.TwoSided (Condition.on conditions field) := by
    rw [← Condition.surplus_eq_zero_iff hCompare field hField]
    simp [ignoring]
  rw [List.flatMap_eq_nil_iff]
  constructor
  · intro hNone condition hCondition
    obtain ⟨own, hOwn, hField⟩ := hWithin condition hCondition
    have hGroup := (hSilent _ (hMentioned own hOwn)).mp (hNone own hOwn)
    rw [hField] at hGroup
    refine hGroup.imp_right fun hTwo => ?_
    obtain ⟨hPosition, hRange⟩ := range_of_twoSided hDistinct hSuits hCondition hTwo hPart
    exact ⟨hPosition, hRange, hTwo⟩
  · intro hConditions own hOwn
    have hGroup := hMentioned own hOwn
    obtain ⟨condition, hCondition, hField⟩ := Condition.on_ne_nil.mp hGroup
    rw [hSilent _ hGroup, ← hField]
    exact (hConditions condition hCondition).imp_right fun hTwo => hTwo.2.2

include hCompare in
theorem accounts_of_answer {selection : Selection} (hSuits : index.Suits conditions last)
    {part : KeyPart} (hPart : index.columns[last]? = some part)
    (hShape : selection.plan.shape = index.shapeAt conditions last part reversed)
    (hAnswer : index.answer? conditions reversed =
      some (selection.plan.shape, selection.ignored)) :
    selection.Accounts conditions index last reversed := by
  have hLast := (List.getElem?_eq_some_iff.mp hPart).1
  obtain ⟨⟨-, hWithin⟩, -⟩ := (suits_iff hDistinct hSuits.standard hLast).mp hSuits
  obtain ⟨hUsed, hIgnored⟩ := answer?_accounts hDistinct hSuits hAnswer
  have hLeading := index.columns.take_sublist (last + 1)
  refine ⟨?_, ?_, ?_, ?_⟩
  · have hNames := hDistinct.sublist (hLeading.map _)
    rw [sum_used_add_surplus hCompare hNames hWithin, hUsed, hIgnored, sum_flatMap_ignoring]
  · intro warning hWarning
    rw [hIgnored, List.mem_flatMap] at hWarning
    obtain ⟨own, hOwn, hReport⟩ := hWarning
    obtain ⟨hPositive, rfl⟩ := mem_ignoring.mp hReport
    obtain ⟨place, -, hPlace⟩ := (exists_mem_take_iff hDistinct).mp ⟨own, hOwn, rfl⟩
    exact ⟨rfl, Option.isSome_of_eq_some hPlace, hPositive, rfl⟩
  · rw [hIgnored, List.pairwise_flatMap]
    refine ⟨fun own _ => ?_, ((pairwise_precedes hDistinct).sublist hLeading).imp ?_⟩
    · unfold ignoring
      split
      · exact .nil
      · exact List.pairwise_singleton _ _
    · intro own other hBefore warning hWarning later hLater
      obtain ⟨-, rfl⟩ := mem_ignoring.mp hWarning
      obtain ⟨-, rfl⟩ := mem_ignoring.mp hLater
      exact hBefore
  · rw [hIgnored, hShape]
    exact silent_iff hCompare hDistinct hSuits hPart

end IndexDefinition

namespace Table

/-- Every comparison of a predicate that compiles is used by its plan or reported, for the chosen
index and in key order. -/
theorem compile_accounts {table : Table} {name : String} {steps : List Declaration}
    (hDeclare : declare name steps = .ok table) {predicate : Expr} {direction : Direction}
    {selection : Selection}
    (hComparisons : ∀ haystack needle, predicate ≠ .contains haystack needle)
    (hCompile : table.compile predicate direction = .ok selection) :
    ∃ conditions index last part, predicate.conditions = .ok conditions ∧
      predicate.comparisons = conditions.length ∧ index ∈ table.indices ∧
      index.Suits conditions last ∧ index.columns[last]? = some part ∧
      selection.plan.shape = index.shapeAt conditions last part direction.isDescending ∧
      selection.Accounts conditions index last direction.isDescending := by
  obtain ⟨conditions, hConditions⟩ : ∃ conditions, predicate.conditions = .ok conditions := by
    cases hConditions : predicate.conditions with
    | ok conditions => exact ⟨conditions, rfl⟩
    | error e =>
        rw [compile, hConditions] at hCompile
        cases hCompile
  have hConjunction := hConditions
  rw [Expr.conditions_eq_conjunction hComparisons] at hConjunction
  have hPredicate := Expr.conjoins_of_conjunction hConjunction
  have hSelect := (compile_eq_selectRange hPredicate).symm.trans hCompile
  obtain ⟨index, hIndex, hStandard, -, -, hAnswer⟩ := selectRange_eq_ok hSelect
  have hDistinct := ((wellFormed_of_declare hDeclare).proper index hIndex).distinct
  obtain ⟨last, part, hSuits, hPart, hShape⟩ :=
    (IndexDefinition.map_answer?_eq_some_iff hDistinct hStandard).mp
      (congrArg (Option.map Prod.fst) hAnswer)
  exact ⟨conditions, index, last, part, hConditions, Expr.comparisons_of_conjoins hPredicate,
    hIndex, hSuits, hPart, hShape, IndexDefinition.accounts_of_answer
      (Expr.compare_of_conjoins hPredicate) hDistinct hSuits hPart hShape hAnswer⟩

/-- A second equality on a pinned column and a second bound on the same side are reported, also
where the first index that has both fields is passed over. -/
theorem compile_accounts_of_rivals :
    let table : Table :=
      { name := "points"
        columns := [⟨"x", .int32, false, false, 0⟩, ⟨"y", .int32, false, false, 1⟩]
        indices := [⟨"byYX", "points", [⟨"y", .ascending⟩, ⟨"x", .ascending⟩], false, .standard, 1⟩,
          ⟨"byXY", "points", [⟨"x", .ascending⟩, ⟨"y", .descending⟩], false, .standard, 1⟩] }
    let bounds : Expr := .binary .and (.binary .atMost (.field "y") (.argument 0))
      (.binary .atMost (.literal (.int32 2)) (.field "y"))
    let rivals : Expr := .binary .and (.binary .equal (.field "x") (.literal (.int32 9)))
      (.binary .atMost (.field "y") (.literal (.int32 7)))
    let predicate : Expr := .binary .and
      (.binary .and bounds (.binary .equal (.argument 1) (.field "x"))) rivals
    let selection : Selection :=
      ⟨⟨2, false, .range "byXY" (some [.argument 1, .argument 0])
          (some [.argument 1, .literal (.int32 2)]) false⟩,
        [⟨"x", "byXY", 1⟩, ⟨"y", "byXY", 1⟩]⟩
    declare "points" [.column "x" .int32, .column "y" .int32, .index "byYX" ["y", "x"],
        .orderedIndex "byXY" [⟨"x", .ascending⟩, ⟨"y", .descending⟩]] = .ok table ∧
      (∀ haystack needle, predicate ≠ .contains haystack needle) ∧
      table.compile predicate .ascending = .ok selection ∧ predicate.comparisons = 5 ∧
      ∃ conditions index last, predicate.conditions = .ok conditions ∧ index ∈ table.indices ∧
        index.Suits conditions last ∧ selection.Accounts conditions index last false := by
  intro table bounds rivals predicate selection
  have hDeclare : declare "points" [.column "x" .int32, .column "y" .int32,
      .index "byYX" ["y", "x"], .orderedIndex "byXY" [⟨"x", .ascending⟩, ⟨"y", .descending⟩]] =
      .ok table := rfl
  have hComparisons : ∀ haystack needle, predicate ≠ .contains haystack needle := nofun
  have hCompile : table.compile predicate .ascending = .ok selection := rfl
  obtain ⟨conditions, index, last, _, hConditions, _, hIndex, hSuits, _, _, hAccounts⟩ :=
    compile_accounts hDeclare hComparisons hCompile
  exact ⟨hDeclare, hComparisons, hCompile, rfl, conditions, index, last, hConditions, hIndex,
    hSuits, hAccounts⟩

end Table

end IndexedTable

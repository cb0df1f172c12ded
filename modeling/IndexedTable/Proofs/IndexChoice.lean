import IndexedTable.Proofs.Declarations
import IndexedTable.Proofs.PlanRange
import Mathlib.Data.List.TakeWhile

/-! The index that comparisons are answered from. What makes an index suitable is said of the places
of its key columns alone; the first suitable index is the one chosen, and the scan over it and every
refusal follow from the conditions and the declaration. -/

namespace IndexedTable

section First

variable {α β : Type}

theorem eq_of_first {P : α → Prop} {before other after rest : List α} {a b : α}
    (hSame : before ++ a :: after = other ++ b :: rest) (ha : P a) (hb : P b)
    (hBefore : ∀ x ∈ before, ¬P x) (hOther : ∀ x ∈ other, ¬P x) : a = b := by
  rcases List.append_eq_append_iff.mp hSame with ⟨between, rfl, hRest⟩ | ⟨between, rfl, hRest⟩
  · cases between with
    | nil => exact (List.cons.inj hRest).1
    | cons x between => exact absurd ((List.cons.inj hRest).1 ▸ ha) (hOther x (by simp))
  · cases between with
    | nil => exact (List.cons.inj hRest).1.symm
    | cons x between => exact absurd ((List.cons.inj hRest).1 ▸ hb) (hBefore x (by simp))

theorem exists_first_of_findSome?_filter {p : α → Bool} {f : α → Option β} {xs : List α} {b : β}
    (hFind : (xs.filter p).findSome? f = some b) : ∃ before a after, xs = before ++ a :: after ∧
      p a = true ∧ f a = some b ∧ ∀ x ∈ before, p x = true → f x = none := by
  obtain ⟨kept, a, rest, hSplit, ha, hKept⟩ := List.findSome?_eq_some_iff.mp hFind
  obtain ⟨front, back, rfl, hFront, hBack⟩ := List.filter_eq_append_iff.mp hSplit
  obtain ⟨skipped, after, rfl, hSkipped, hHolds, -⟩ := List.filter_eq_cons_iff.mp hBack
  refine ⟨front ++ skipped, a, after, (List.append_assoc ..).symm, hHolds, ha, ?_⟩
  intro x hx hPasses
  rcases List.mem_append.mp hx with hEarly | hLate
  · exact hKept x (hFront ▸ List.mem_filter.mpr ⟨hEarly, hPasses⟩)
  · exact absurd hPasses (hSkipped x hLate)

end First

namespace IndexDefinition

/-- The value of the leftmost condition with the comparison on the key column at a place. -/
def leftmost? (index : IndexDefinition) (conditions : List Condition) (place : Nat)
    (comparison : Comparison) : Option ValueSource :=
  (conditions.find? fun condition =>
    decide (index.position? condition.field = some place ∧
      condition.kind = .compare comparison)).map (·.source)

/-- The conditions mention the key columns up to a place and no other column, and each of these but
the last is the field of an equality. -/
structure Suits (index : IndexDefinition) (conditions : List Condition) (last : Nat) : Prop where
  standard : index.isTuple = false
  within : ∀ condition ∈ conditions, ∃ place ≤ last, index.position? condition.field = some place
  mentioned : ∀ place ≤ last, ∃ condition ∈ conditions,
    index.position? condition.field = some place
  pinned : ∀ place < last, ∃ condition ∈ conditions,
    index.position? condition.field = some place ∧ condition.kind = .compare .equal

/-- The values of the leftmost equalities on the key columns before a place, in key order. -/
def pinnedBefore (index : IndexDefinition) (conditions : List Condition) (last : Nat) :
    List ValueSource :=
  (List.range last).filterMap fun place => index.leftmost? conditions place .equal

/-- The scan for conditions of which the last key column mentioned is at a place: a match if that
column is pinned too, or else a range between its leftmost bounds. -/
def shapeAt (index : IndexDefinition) (conditions : List Condition) (last : Nat) (part : KeyPart)
    (reversed : Bool) : PlanShape :=
  let pinned := index.pinnedBefore conditions last
  let endBy (comparison : Comparison) : Option (List ValueSource) :=
    ValueSource.endOf (pinned ++ (index.leftmost? conditions last comparison).toList)
  match index.leftmost? conditions last .equal with
  | some value => .exact index.name (pinned ++ [value]) reversed
  | none =>
    .range index.name (endBy (.atStart part.direction)) (endBy (.atStop part.direction)) reversed

end IndexDefinition

/-- What compiling comparisons comes to. -/
inductive Table.Compiles (table : Table) (conditions : List Condition) (reversed : Bool) :
    Except CompileError Plan → Prop where
  /-- The leftmost condition on a field that is no column. -/
  | unknownField {earlier later : List Condition} {condition : Condition}
      (hConditions : conditions = earlier ++ condition :: later)
      (hEarlier : ∀ other ∈ earlier, (table.column? other.field).isSome)
      (hUnknown : table.column? condition.field = none) :
      Compiles table conditions reversed (.error (.unknownField condition.field))
  /-- Every index that holds whole values lacks a field. -/
  | noCoveringIndex
      (hKnown : ∀ condition ∈ conditions, (table.column? condition.field).isSome)
      (hLacks : ∀ index ∈ table.indices, index.isTuple = false →
        ∃ condition ∈ conditions, index.position? condition.field = none) :
      Compiles table conditions reversed (.error (.noCoveringIndex (Condition.fields conditions)))
  /-- Some index has every field, but none is suitable. -/
  | noSuitableIndex {index : IndexDefinition}
      (hKnown : ∀ condition ∈ conditions, (table.column? condition.field).isSome)
      (hIndex : index ∈ table.indices) (hStandard : index.isTuple = false)
      (hCovers : ∀ condition ∈ conditions, (index.position? condition.field).isSome)
      (hUnsuitable : ∀ other ∈ table.indices, ∀ last, ¬other.Suits conditions last) :
      Compiles table conditions reversed (.error (.noSuitableIndex (Condition.fields conditions)))
  /-- The first suitable index. -/
  | planned {earlier later : List IndexDefinition} {index : IndexDefinition} {last : Nat}
      {part : KeyPart}
      (hKnown : ∀ condition ∈ conditions, (table.column? condition.field).isSome)
      (hIndices : table.indices = earlier ++ index :: later)
      (hEarlier : ∀ other ∈ earlier, ∀ last, ¬other.Suits conditions last)
      (hSuits : index.Suits conditions last) (hPart : index.columns[last]? = some part) :
      Compiles table conditions reversed
        (.ok ⟨index.width, index.repeatsRecords table,
          index.shapeAt conditions last part reversed⟩)

namespace Condition

variable {conditions : List Condition}

/-- Looking through the fields in order of first mention is looking through the conditions. -/
theorem find?_fields (p : String → Bool) :
    (fields conditions).find? p = (conditions.map (·.field)).find? p := by
  suffices hFold : ∀ seen : List String,
      (conditions.foldl (fun seen condition =>
        if seen.contains condition.field then seen else seen ++ [condition.field]) seen).find? p =
          (seen ++ conditions.map (·.field)).find? p from hFold []
  induction conditions with
  | nil => simp
  | cons condition rest ih =>
      intro seen
      rw [List.foldl_cons, ih]
      split
      · rename_i hSeen
        have hMem : condition.field ∈ seen := by simpa using hSeen
        cases hFind : seen.find? p with
        | some found => simp [hFind]
        | none =>
            have hFails : p condition.field = false := by
              simpa using List.find?_eq_none.mp hFind _ hMem
            simp [hFind, hFails]
      · simp

theorem mem_fields {field : String} :
    field ∈ fields conditions ↔ ∃ condition ∈ conditions, condition.field = field := by
  have hFind := congrArg Option.isSome (@find?_fields conditions (· == field))
  rw [Bool.eq_iff_iff, List.find?_isSome, List.find?_isSome] at hFind
  simpa using hFind

theorem on_ne_nil {field : String} :
    on conditions field ≠ [] ↔ ∃ condition ∈ conditions, condition.field = field := by
  simp [on, List.filter_eq_nil_iff]

theorem first?_on {field : String} {comparison : Comparison} :
    first? (on conditions field) comparison = conditions.find? fun condition =>
      decide (condition.field = field ∧ condition.kind = .compare comparison) := by
  rw [first?, on, List.find?_filter]
  congr 1
  funext condition
  simp

end Condition

namespace IndexDefinition

variable {index : IndexDefinition} {conditions : List Condition} {reversed : Bool} {last : Nat}

/-- The value that pins a key column. -/
def pin? (conditions : List Condition) (part : KeyPart) : Option ValueSource :=
  (Condition.first? (Condition.on conditions part.column) .equal).map (·.source)

section Places

variable (hDistinct : (index.columns.map (·.column)).Nodup)

include hDistinct

theorem position?_eq_some_iff {field : String} {place : Nat} :
    index.position? field = some place ↔
      ∃ part, index.columns[place]? = some part ∧ part.column = field := by
  rw [position?, List.findIdx?_eq_some_iff_getElem]
  constructor
  · rintro ⟨hPlace, hField, -⟩
    exact ⟨_, List.getElem?_eq_getElem hPlace, by simpa using hField⟩
  · rintro ⟨part, hPart, rfl⟩
    obtain ⟨hPlace, rfl⟩ := List.getElem?_eq_some_iff.mp hPart
    refine ⟨hPlace, by simp, fun earlier hEarlier hSame => ?_⟩
    have hLength : place < (index.columns.map (·.column)).length := by simpa using hPlace
    have hBefore : earlier < (index.columns.map (·.column)).length := hEarlier.trans hLength
    have hNames : (index.columns.map (·.column))[earlier] = (index.columns.map (·.column))[place] :=
      by simpa using hSame
    exact hEarlier.ne (hDistinct.getElem_inj_iff.mp hNames)

theorem exists_mem_take_iff {field : String} {count : Nat} :
    (∃ part ∈ index.columns.take count, part.column = field) ↔
      ∃ place < count, index.position? field = some place := by
  simp only [position?_eq_some_iff hDistinct, List.mem_take_iff_getElem]
  constructor
  · rintro ⟨part, ⟨place, hPlace, rfl⟩, hField⟩
    exact ⟨place, by omega, _, List.getElem?_eq_getElem (by omega), hField⟩
  · rintro ⟨place, hPlace, part, hPart, hField⟩
    obtain ⟨hLength, rfl⟩ := List.getElem?_eq_some_iff.mp hPart
    exact ⟨_, ⟨place, by omega, rfl⟩, hField⟩

theorem leftmost?_eq {place : Nat} {comparison : Comparison} :
    index.leftmost? conditions place comparison = index.columns[place]?.bind fun part =>
      (Condition.first? (Condition.on conditions part.column) comparison).map (·.source) := by
  cases hPart : index.columns[place]? with
  | none =>
      simp [leftmost?, position?_eq_some_iff hDistinct, hPart]
  | some part =>
      rw [Option.bind_some, Condition.first?_on, leftmost?]
      simp [position?_eq_some_iff hDistinct, hPart, eq_comm]

theorem pinnedBefore_eq :
    index.pinnedBefore conditions last = (index.columns.take last).filterMap (pin? conditions) := by
  induction last with
  | zero => rfl
  | succ last ih =>
      rw [pinnedBefore, List.range_succ, List.filterMap_append, ← pinnedBefore, ih,
        List.take_add_one, List.filterMap_append]
      congr 1
      cases hPart : index.columns[last]? <;>
        simp [List.filterMap_cons, leftmost?_eq hDistinct, hPart, pin?]

/-- If the fields mentioned are some leading key columns, the columns after these have no
conditions. -/
theorem takeWhile_on {count : Nat}
    (hMentioned : ∀ part ∈ index.columns.take count, Condition.on conditions part.column ≠ [])
    (hWithin : ∀ condition ∈ conditions, ∃ part ∈ index.columns.take count,
      part.column = condition.field) :
    index.columns.takeWhile (fun part => !(Condition.on conditions part.column).isEmpty) =
      index.columns.take count := by
  have hFree : ∀ part ∈ index.columns.drop count, Condition.on conditions part.column = [] := by
    intro part hPart
    by_contra hOn
    obtain ⟨condition, hCondition, hField⟩ := Condition.on_ne_nil.mp hOn
    obtain ⟨other, hOther, hSame⟩ := hWithin condition hCondition
    rw [← List.take_append_drop count index.columns, List.map_append] at hDistinct
    exact (List.nodup_append.mp hDistinct).2.2 _ (List.mem_map_of_mem hOther) _
      (List.mem_map_of_mem hPart) (hSame.trans hField)
  conv_lhs => rw [← List.take_append_drop count index.columns]
  rw [List.takeWhile_append_of_pos fun part hPart => by simp [hMentioned part hPart]]
  cases hDrop : index.columns.drop count with
  | nil => simp
  | cons part rest => simp [hFree part (by simp [hDrop])]

/-- The conditions make groups exactly when the fields mentioned are some leading key columns. -/
theorem groups?_eq_some_iff {groups : List (KeyPart × List Condition)} :
    index.groups? conditions = some groups ↔ ∃ last < index.columns.length,
      (∀ part ∈ index.columns.take (last + 1), Condition.on conditions part.column ≠ []) ∧
      (∀ condition ∈ conditions, ∃ part ∈ index.columns.take (last + 1),
        part.column = condition.field) ∧
      groups = (index.columns.take (last + 1)).map fun part =>
        (part, Condition.on conditions part.column) := by
  let front := index.columns.takeWhile fun part => !(Condition.on conditions part.column).isEmpty
  have hGroups : index.groups? conditions =
      if (conditions.all fun condition => front.any fun part => part.column == condition.field) &&
          !front.isEmpty then
        some (front.map fun part => (part, Condition.on conditions part.column))
      else none := by
    simp only [groups?, List.takeWhile_map, List.any_map, List.isEmpty_map]
    rfl
  rw [hGroups, Option.ite_none_right_eq_some, Bool.and_eq_true, List.all_eq_true]
  simp only [List.any_eq_true, beq_iff_eq]
  constructor
  · rintro ⟨⟨hWithin, hNonempty⟩, hSame⟩
    have hPrefix : front <+: index.columns := List.takeWhile_prefix _
    have hLength : 0 < front.length := List.length_pos_iff.mpr (by simpa using hNonempty)
    have hTake : index.columns.take (front.length - 1 + 1) = front := by
      rw [Nat.sub_add_cancel hLength]
      exact (List.prefix_iff_eq_take.mp hPrefix).symm
    have hShort := hPrefix.length_le
    refine ⟨front.length - 1, by omega, ?_⟩
    rw [hTake]
    refine ⟨fun part hPart => ?_, hWithin, (Option.some.inj hSame).symm⟩
    simpa using List.mem_takeWhile_imp hPart
  · rintro ⟨last, hLast, hMentioned, hWithin, rfl⟩
    have hFront : front = index.columns.take (last + 1) :=
      takeWhile_on hDistinct hMentioned hWithin
    have hNonempty : index.columns ≠ [] := List.ne_nil_of_length_pos (by omega)
    rw [hFront]
    exact ⟨⟨hWithin, by simpa using hNonempty⟩, rfl⟩

end Places

/-- The scan for one more group, when it is the last or pins its column. -/
theorem map_shapeOf_cons {pinned : List ValueSource} {part : KeyPart} {group : List Condition}
    {rest : List (KeyPart × List Condition)} (hRest : rest ≠ []) :
    (index.shapeOf reversed pinned ((part, group) :: rest)).map Prod.fst =
      (Condition.first? group .equal).bind fun equality =>
        (index.shapeOf reversed (pinned ++ [equality.source]) rest).map Prod.fst := by
  rw [shapeOf]
  cases Condition.first? group .equal with
  | none => simp [hRest]
  | some equality => simp [hRest, Function.comp_def]

/-- A scan is built when every group but the last pins its column. -/
theorem map_shapeOf_concat {front : List KeyPart} {part : KeyPart} {pinned : List ValueSource}
    {shape : PlanShape} :
    (index.shapeOf reversed pinned ((front ++ [part]).map fun part =>
      (part, Condition.on conditions part.column))).map Prod.fst = some shape ↔
    (∀ earlier ∈ front, (pin? conditions earlier).isSome) ∧
      (index.shapeOf reversed (pinned ++ front.filterMap (pin? conditions))
        [(part, Condition.on conditions part.column)]).map Prod.fst = some shape := by
  induction front generalizing pinned with
  | nil => simp
  | cons first front ih =>
      rw [List.cons_append, List.map_cons, map_shapeOf_cons (by simp), List.forall_mem_cons]
      cases hEqual : Condition.first? (Condition.on conditions first.column) .equal with
      | none => simp [pin?, hEqual]
      | some equality =>
          have hPin : pin? conditions first = some equality.source := by simp [pin?, hEqual]
          rw [Option.bind_some, ih, List.filterMap_cons_some hPin, List.append_assoc,
            List.singleton_append]
          simp [hPin]

variable (hDistinct : (index.columns.map (·.column)).Nodup)

include hDistinct

/-- The last scan is the one that the places of the key columns describe. -/
theorem map_shapeOf_last {part : KeyPart} (hPart : index.columns[last]? = some part) :
    (index.shapeOf reversed (index.pinnedBefore conditions last)
      [(part, Condition.on conditions part.column)]).map Prod.fst =
        some (index.shapeAt conditions last part reversed) := by
  have hLeftmost (comparison : Comparison) : index.leftmost? conditions last comparison =
      (Condition.first? (Condition.on conditions part.column) comparison).map (·.source) := by
    rw [leftmost?_eq hDistinct, hPart, Option.bind_some]
  simp only [shapeOf, shapeAt, hLeftmost]
  cases Condition.first? (Condition.on conditions part.column) .equal with
  | some equality => rfl
  | none => cases hDirection : part.direction <;> rfl

omit hDistinct in
theorem isSome_pin?_iff {part : KeyPart} :
    (pin? conditions part).isSome ↔ ∃ condition ∈ conditions,
      condition.field = part.column ∧ condition.kind = .compare .equal := by
  rw [pin?, Option.isSome_map, Condition.first?_on, List.find?_isSome]
  simp

/-- Something is asked of a condition at every place exactly when it is of one on every column. -/
theorem forall_place_iff {count : Nat} (hCount : count ≤ index.columns.length)
    {P : Condition → Prop} :
    (∀ place < count, ∃ condition ∈ conditions,
        index.position? condition.field = some place ∧ P condition) ↔
      ∀ part ∈ index.columns.take count, ∃ condition ∈ conditions,
        condition.field = part.column ∧ P condition := by
  constructor
  · intro hPlaces part hPart
    obtain ⟨place, hPlace, rfl⟩ := List.mem_take_iff_getElem.mp hPart
    obtain ⟨condition, hCondition, hPosition, hHolds⟩ := hPlaces place (by omega)
    obtain ⟨other, hOther, hField⟩ := (position?_eq_some_iff hDistinct).mp hPosition
    obtain ⟨_, rfl⟩ := List.getElem?_eq_some_iff.mp hOther
    exact ⟨condition, hCondition, hField.symm, hHolds⟩
  · intro hParts place hPlace
    obtain ⟨condition, hCondition, hField, hHolds⟩ :=
      hParts _ (List.mem_take_iff_getElem.mpr ⟨place, by omega, rfl⟩)
    exact ⟨condition, hCondition, (position?_eq_some_iff hDistinct).mpr
      ⟨_, List.getElem?_eq_getElem (by omega), hField.symm⟩, hHolds⟩

/-- Suitability, said of the leading key columns instead of their places. -/
theorem suits_iff (hStandard : index.isTuple = false) (hLast : last < index.columns.length) :
    index.Suits conditions last ↔
      ((∀ part ∈ index.columns.take (last + 1), Condition.on conditions part.column ≠ []) ∧
        ∀ condition ∈ conditions, ∃ part ∈ index.columns.take (last + 1),
          part.column = condition.field) ∧
      ∀ part ∈ index.columns.take last, (pin? conditions part).isSome := by
  have hMentioned := @forall_place_iff _ conditions hDistinct (last + 1) hLast fun _ => True
  have hPinned := @forall_place_iff _ conditions hDistinct last hLast.le fun condition =>
    condition.kind = .compare .equal
  simp only [and_true, Nat.lt_add_one_iff] at hMentioned
  simp only [exists_mem_take_iff hDistinct, isSome_pin?_iff, Condition.on_ne_nil,
    Nat.lt_add_one_iff, ← hMentioned, ← hPinned]
  exact ⟨fun hSuits => ⟨⟨hSuits.mentioned, hSuits.within⟩, hSuits.pinned⟩,
    fun ⟨⟨hMentions, hWithin⟩, hPins⟩ => ⟨hStandard, hWithin, hMentions, hPins⟩⟩

/-- An index answers the conditions exactly when it is suitable for them. -/
theorem map_answer?_eq_some_iff (hStandard : index.isTuple = false) {shape : PlanShape} :
    (index.answer? conditions reversed).map Prod.fst = some shape ↔
      ∃ last part, index.Suits conditions last ∧ index.columns[last]? = some part ∧
        shape = index.shapeAt conditions last part reversed := by
  have hConcat {last : Nat} {part : KeyPart} (hPart : index.columns[last]? = some part) :
      (index.shapeOf reversed [] ((index.columns.take (last + 1)).map fun part =>
        (part, Condition.on conditions part.column))).map Prod.fst = some shape ↔
      (∀ part ∈ index.columns.take last, (pin? conditions part).isSome) ∧
        shape = index.shapeAt conditions last part reversed := by
    rw [List.take_add_one, hPart, Option.toList_some, map_shapeOf_concat, List.nil_append,
      ← pinnedBefore_eq hDistinct, map_shapeOf_last hDistinct hPart, Option.some.injEq, eq_comm]
  rw [answer?, Option.map_bind, Option.bind_eq_some_iff]
  simp only [groups?_eq_some_iff hDistinct, Function.comp_apply]
  constructor
  · rintro ⟨_, ⟨last, hLast, hMentioned, hWithin, rfl⟩, hShape⟩
    have hPart := List.getElem?_eq_getElem hLast
    obtain ⟨hPinned, hSame⟩ := (hConcat hPart).mp hShape
    exact ⟨last, _, (suits_iff hDistinct hStandard hLast).mpr ⟨⟨hMentioned, hWithin⟩, hPinned⟩,
      hPart, hSame⟩
  · rintro ⟨last, part, hSuits, hPart, hSame⟩
    have hLast := (List.getElem?_eq_some_iff.mp hPart).1
    obtain ⟨⟨hMentioned, hWithin⟩, hPinned⟩ := (suits_iff hDistinct hStandard hLast).mp hSuits
    exact ⟨_, ⟨last, hLast, hMentioned, hWithin, rfl⟩, (hConcat hPart).mpr ⟨hPinned, hSame⟩⟩

omit hDistinct

theorem Suits.covers (hSuits : index.Suits conditions last) :
    ∀ condition ∈ conditions, (index.position? condition.field).isSome := by
  intro condition hCondition
  obtain ⟨place, -, hPlace⟩ := hSuits.within condition hCondition
  rw [hPlace, Option.isSome_some]

theorem Suits.exists_part (hSuits : index.Suits conditions last)
    (hDistinct : (index.columns.map (·.column)).Nodup) :
    ∃ part, index.columns[last]? = some part := by
  obtain ⟨condition, -, hLast⟩ := hSuits.mentioned last le_rfl
  obtain ⟨part, hPart, -⟩ := (position?_eq_some_iff hDistinct).mp hLast
  exact ⟨part, hPart⟩

theorem Suits.last_le {other : Nat} (hSuits : index.Suits conditions last)
    (hOther : index.Suits conditions other) : last ≤ other := by
  obtain ⟨condition, hCondition, hLast⟩ := hSuits.mentioned last le_rfl
  obtain ⟨place, hPlace, hSame⟩ := hOther.within condition hCondition
  rwa [← Option.some.inj (hSame.symm.trans hLast)]

theorem Suits.last_unique {other : Nat} (hSuits : index.Suits conditions last)
    (hOther : index.Suits conditions other) : last = other :=
  le_antisymm (hSuits.last_le hOther) (hOther.last_le hSuits)

end IndexDefinition

namespace Table

variable {table : Table} {conditions : List Condition} {reversed : Bool}

theorem select_eq_selectRange (hNonempty : conditions ≠ [])
    (hCompare : ∀ condition ∈ conditions, ∃ comparison, condition.kind = .compare comparison) :
    table.select conditions reversed = table.selectRange conditions reversed := by
  unfold select
  split
  · exact absurd rfl hNonempty
  · simp at hCompare
  · rfl

/-- A conjunction of comparisons is compiled from its conditions. -/
theorem compile_eq_select {predicate : Expr} {direction : Direction}
    (hPredicate : predicate.Conjoins conditions) :
    table.compile predicate direction = table.select conditions direction.isDescending := by
  rw [compile, Expr.conditions_of_conjoins hPredicate]
  cases hPredicate <;> rfl

theorem compile_eq_selectRange {predicate : Expr} {direction : Direction}
    (hPredicate : predicate.Conjoins conditions) :
    table.compile predicate direction = table.selectRange conditions direction.isDescending :=
  (compile_eq_select hPredicate).trans
    (select_eq_selectRange (Expr.ne_nil_of_conjoins hPredicate)
      (Expr.compare_of_conjoins hPredicate))

/-- An index that is passed over is not suitable. -/
theorem not_suits (hTable : table.WellFormed) {index : IndexDefinition}
    (hIndex : index ∈ table.indices)
    (hUnused : index.isTuple = false →
      (∀ condition ∈ conditions, (index.position? condition.field).isSome) →
        index.answer? conditions reversed = none) (last : Nat) :
    ¬index.Suits conditions last := by
  intro hSuits
  have hDistinct := (hTable.proper index hIndex).distinct
  obtain ⟨part, hPart⟩ := hSuits.exists_part hDistinct
  have hAnswer := (@IndexDefinition.map_answer?_eq_some_iff index conditions reversed hDistinct
    hSuits.standard _).mpr ⟨last, part, hSuits, hPart, rfl⟩
  rw [hUnused hSuits.standard hSuits.covers] at hAnswer
  cases hAnswer

/-- What compiling comes to is what the conditions and the declaration say. -/
theorem WellFormed.compiles_selectRange (hTable : table.WellFormed) :
    table.Compiles conditions reversed
      ((table.selectRange conditions reversed).map (·.plan)) := by
  have hCandidate (index : IndexDefinition) :
      (!index.isTuple && (Condition.fields conditions).all fun field =>
        (index.position? field).isSome) = true ↔ index.isTuple = false ∧
          ∀ condition ∈ conditions, (index.position? condition.field).isSome := by
    simp [List.all_eq_true, Condition.mem_fields]
  unfold selectRange
  dsimp only
  split
  next field hFind =>
    rw [Condition.find?_fields, List.find?_map, Option.map_eq_some_iff] at hFind
    obtain ⟨condition, hFirst, rfl⟩ := hFind
    obtain ⟨hUnknown, earlier, later, hConditions, hEarlier⟩ :=
      List.find?_eq_some_iff_append.mp hFirst
    exact .unknownField hConditions (fun other hOther => by simpa using hEarlier other hOther)
      (by simpa using hUnknown)
  next hFind =>
    have hKnown : ∀ condition ∈ conditions, (table.column? condition.field).isSome := by
      rw [Condition.find?_fields] at hFind
      simpa [Option.isSome_iff_ne_none] using hFind
    split
    next hEmpty =>
      rw [List.isEmpty_iff, List.filter_eq_nil_iff] at hEmpty
      refine .noCoveringIndex hKnown fun index hIndex hStandard => ?_
      have hLacks := mt (hCandidate index).mpr (hEmpty index hIndex)
      simpa [hStandard] using hLacks
    next hNonempty =>
      split
      next hNone =>
        obtain ⟨covering, hCovering⟩ :=
          List.exists_mem_of_ne_nil _ (mt List.isEmpty_iff.mpr hNonempty)
        obtain ⟨hCovering, hOpen⟩ := List.mem_filter.mp hCovering
        obtain ⟨hStandard, hCovers⟩ := (hCandidate covering).mp hOpen
        refine .noSuitableIndex hKnown hCovering hStandard hCovers fun index hIndex =>
          @not_suits table conditions reversed hTable index hIndex fun hStandard hCovers => ?_
        have hOpen := (hCandidate index).mpr ⟨hStandard, hCovers⟩
        simpa using List.findSome?_eq_none_iff.mp hNone index (List.mem_filter.mpr ⟨hIndex, hOpen⟩)
      next index shape ignored hSome =>
        obtain ⟨earlier, chosen, later, hIndices, hOpen, hChosen, hEarlier⟩ :=
          exists_first_of_findSome?_filter hSome
        obtain ⟨answer, hAnswered, hSame⟩ := Option.map_eq_some_iff.mp hChosen
        cases hSame
        have hIndex : index ∈ table.indices := by simp [hIndices]
        obtain ⟨last, part, hSuits, hPart, rfl⟩ := (IndexDefinition.map_answer?_eq_some_iff
          (hTable.proper index hIndex).distinct ((hCandidate index).mp hOpen).1).mp
            (congrArg (Option.map Prod.fst) hAnswered)
        refine .planned hKnown hIndices (fun other hOther => ?_) hSuits hPart
        have hMem : other ∈ table.indices := by simp [hIndices, hOther]
        refine @not_suits table conditions reversed hTable other hMem fun hStandard hCovers => ?_
        simpa using hEarlier other hOther ((hCandidate other).mpr ⟨hStandard, hCovers⟩)

/-- Conditions come to one thing only. -/
theorem Compiles.unique {result other : Except CompileError Plan}
    (hResult : table.Compiles conditions reversed result)
    (hOther : table.Compiles conditions reversed other) : result = other := by
  have hField {earlier later : List Condition} {condition : Condition}
      (hConditions : conditions = earlier ++ condition :: later)
      (hUnknown : table.column? condition.field = none)
      (hKnown : ∀ condition ∈ conditions, (table.column? condition.field).isSome) : False := by
    have hColumn := hKnown condition (by simp [hConditions])
    simp [hUnknown] at hColumn
  have hCover {index : IndexDefinition}
      (hLacks : ∀ index ∈ table.indices, index.isTuple = false →
        ∃ condition ∈ conditions, index.position? condition.field = none)
      (hIndex : index ∈ table.indices) (hStandard : index.isTuple = false)
      (hCovers : ∀ condition ∈ conditions, (index.position? condition.field).isSome) : False := by
    obtain ⟨condition, hCondition, hMissing⟩ := hLacks index hIndex hStandard
    simpa [hMissing] using hCovers condition hCondition
  cases hResult with
  | unknownField hConditions hEarlier hUnknown =>
      cases hOther with
      | unknownField hSame hBefore hMissing =>
          rw [eq_of_first (P := fun condition => table.column? condition.field = none)
            (hConditions.symm.trans hSame) hUnknown hMissing
            (fun x hx => Option.isSome_iff_ne_none.mp (hEarlier x hx))
            (fun x hx => Option.isSome_iff_ne_none.mp (hBefore x hx))]
      | noCoveringIndex hKnown | noSuitableIndex hKnown | planned hKnown =>
          exact (hField hConditions hUnknown hKnown).elim
  | noCoveringIndex hKnown hLacks =>
      cases hOther with
      | unknownField hConditions _ hUnknown => exact (hField hConditions hUnknown hKnown).elim
      | noCoveringIndex => rfl
      | noSuitableIndex _ hIndex hStandard hCovers =>
          exact (hCover hLacks hIndex hStandard hCovers).elim
      | planned _ hIndices _ hSuits =>
          exact (hCover hLacks (by simp [hIndices]) hSuits.standard hSuits.covers).elim
  | noSuitableIndex hKnown hIndex hStandard hCovers hUnsuitable =>
      cases hOther with
      | unknownField hConditions _ hUnknown => exact (hField hConditions hUnknown hKnown).elim
      | noCoveringIndex _ hLacks => exact (hCover hLacks hIndex hStandard hCovers).elim
      | noSuitableIndex => rfl
      | planned _ hIndices _ hSuits => exact absurd hSuits (hUnsuitable _ (by simp [hIndices]) _)
  | planned hKnown hIndices hEarlier hSuits hPart =>
      cases hOther with
      | unknownField hConditions _ hUnknown => exact (hField hConditions hUnknown hKnown).elim
      | noCoveringIndex _ hLacks =>
          exact (hCover hLacks (by simp [hIndices]) hSuits.standard hSuits.covers).elim
      | noSuitableIndex _ _ _ _ hUnsuitable =>
          exact absurd hSuits (hUnsuitable _ (by simp [hIndices]) _)
      | planned _ hSame hBefore hAlso hOther =>
          obtain rfl := eq_of_first (P := fun index => ∃ last, index.Suits conditions last)
            (hIndices.symm.trans hSame) ⟨_, hSuits⟩ ⟨_, hAlso⟩
            (fun x hx ⟨last, hx'⟩ => hEarlier x hx last hx')
            (fun x hx ⟨last, hx'⟩ => hBefore x hx last hx')
          obtain rfl := hSuits.last_unique hAlso
          obtain rfl := Option.some.inj (hPart.symm.trans hOther)
          rfl

/-- Comparisons compile to what the specification says and to nothing else: to the scan over the
first suitable index, or to the refusal that fits. So does every predicate that is a conjunction of
them, in either direction. -/
theorem compiles_iff {name : String} {steps : List Declaration}
    (hDeclare : declare name steps = .ok table) (hNonempty : conditions ≠ [])
    (hCompare : ∀ condition ∈ conditions, ∃ comparison, condition.kind = .compare comparison)
    (result : Except CompileError Plan) :
    ((table.select conditions reversed).map (·.plan) = result ↔
      table.Compiles conditions reversed result) ∧
    ∀ predicate direction, predicate.Conjoins conditions →
      ((table.compile predicate direction).map (·.plan) = result ↔
        table.Compiles conditions direction.isDescending result) := by
  have hSelect (reversed : Bool) : (table.select conditions reversed).map (·.plan) = result ↔
      table.Compiles conditions reversed result := by
    have hCompiles := @WellFormed.compiles_selectRange table conditions reversed
      (wellFormed_of_declare hDeclare)
    rw [← select_eq_selectRange hNonempty hCompare] at hCompiles
    exact ⟨fun hResult => hResult ▸ hCompiles, hCompiles.unique⟩
  refine ⟨hSelect reversed, fun predicate direction hPredicate => ?_⟩
  rw [← hSelect, compile_eq_select hPredicate]

/-- The first index that has both fields is passed over, since its first column is not pinned; the
second is read between two keys whose last values change places, the column being descending. -/
theorem compiles_iff_of_descending :
    let table : Table :=
      { name := "points"
        columns := [⟨"x", .int32, false, false, 0⟩, ⟨"y", .int32, false, false, 1⟩]
        indices := [⟨"byYX", "points", [⟨"y", .ascending⟩, ⟨"x", .ascending⟩], false, .standard, 1⟩,
          ⟨"byXY", "points", [⟨"x", .ascending⟩, ⟨"y", .descending⟩], false, .standard, 1⟩] }
    let conditions : List Condition :=
      [⟨"y", .compare .atMost, .argument 0⟩, ⟨"x", .compare .equal, .argument 1⟩,
        ⟨"y", .compare .atLeast, .literal (.int32 2)⟩, ⟨"x", .compare .equal, .literal (.int32 9)⟩,
        ⟨"y", .compare .atMost, .literal (.int32 7)⟩]
    let plan : Plan :=
      ⟨2, false, .range "byXY" (some [.argument 1, .argument 0])
        (some [.argument 1, .literal (.int32 2)]) false⟩
    declare "points" [.column "x" .int32, .column "y" .int32, .index "byYX" ["y", "x"],
        .orderedIndex "byXY" [⟨"x", .ascending⟩, ⟨"y", .descending⟩]] =
      .ok table ∧ conditions ≠ [] ∧
      (∀ condition ∈ conditions, ∃ comparison, condition.kind = .compare comparison) ∧
      table.Compiles conditions false (.ok plan) := by
  intro table conditions plan
  have hDeclare : declare "points" [.column "x" .int32, .column "y" .int32,
      .index "byYX" ["y", "x"], .orderedIndex "byXY" [⟨"x", .ascending⟩, ⟨"y", .descending⟩]] =
      .ok table := rfl
  have hCompare : ∀ condition ∈ conditions, ∃ comparison,
      condition.kind = .compare comparison := by simp [conditions]
  have hCompiles := @compiles_iff table conditions false _ _ hDeclare (List.cons_ne_nil _ _)
    hCompare (.ok plan)
  exact ⟨hDeclare, List.cons_ne_nil _ _, hCompare, hCompiles.1.mp rfl⟩

end Table

end IndexedTable

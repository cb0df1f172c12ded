import IndexedTable.Plan.Basic
import IndexedTable.Proofs.RowKeys

/-! What a conjunction of comparisons asks of a stored row. Of the conditions on one field its
leftmost equality counts, or else its leftmost bound on either side; an element of a column is
compared with the value of a condition after that has been converted to the type of the column.
Values are compared in a way that is left open, to state the same of the order of values and of that
of keys. -/

namespace IndexedTable

namespace Comparison

/-- The operator that asks for the comparison with the field on the left. -/
def operator : Comparison → BinaryOp
  | atMost => .atMost
  | equal => .equal
  | atLeast => .atLeast

/-- The comparison that an operator asks for with the field on the right. -/
def mirrored : Comparison → Comparison
  | atMost => atLeast
  | equal => equal
  | atLeast => atMost

/-- Whether a value in the given order to the value of a condition passes. -/
def accepts : Comparison → Ordering → Bool
  | atMost, o => o != .gt
  | equal, o => o == .eq
  | atLeast, o => o != .lt

end Comparison

/-- The expression that stands for a source. -/
def ValueSource.expr : ValueSource → Expr
  | literal value => .literal value
  | argument place => .argument place
  | thunk t => .thunk t

/-- A predicate that is a conjunction of comparisons, and its conditions from left to right. -/
inductive Expr.Conjoins : Expr → List Condition → Prop where
  | fieldFirst (name : String) (comparison : Comparison) (source : ValueSource) :
      Conjoins (.binary comparison.operator (.field name) source.expr)
        [⟨name, .compare comparison, source⟩]
  | fieldLast (name : String) (comparison : Comparison) (source : ValueSource) :
      Conjoins (.binary comparison.operator source.expr (.field name))
        [⟨name, .compare comparison.mirrored, source⟩]
  | and {left right : Expr} {first second : List Condition} (hLeft : Conjoins left first)
      (hRight : Conjoins right second) : Conjoins (.binary .and left right) (first ++ second)

theorem ValueSource.ofExpr_eq_ok {expr : Expr} {source : ValueSource}
    (hSource : ofExpr expr = .ok source) : expr = source.expr := by
  cases expr with
  | literal _ | argument _ | thunk _ =>
      cases hSource
      rfl
  | _ => cases hSource

namespace Expr

variable {predicate : Expr} {conditions : List Condition}

theorem conjunction_of_conjoins (hPredicate : predicate.Conjoins conditions) :
    predicate.conjunction = .ok conditions := by
  induction hPredicate with
  | fieldFirst name comparison source => cases comparison <;> cases source <;> rfl
  | fieldLast name comparison source => cases comparison <;> cases source <;> rfl
  | and _ _ ihLeft ihRight =>
      rw [conjunction, ihLeft, ihRight]
      rfl

theorem eq_field_of_asField? {expr : Expr} {name : String} (hField : expr.asField? = some name) :
    expr = .field name := by
  cases expr <;> cases hField
  rfl

theorem inclusive_eq_ok {op : BinaryOp} {comparison : Comparison}
    (hComparison : inclusive op = .ok comparison) : op = comparison.operator := by
  cases op <;> cases hComparison <;> rfl

theorem inclusive_mirrored_eq_ok {op : BinaryOp} {comparison : Comparison}
    (hComparison : inclusive op.mirrored = .ok comparison) :
    ∃ own : Comparison, op = own.operator ∧ comparison = own.mirrored := by
  cases op <;> cases hComparison
  · exact ⟨.equal, rfl, rfl⟩
  · exact ⟨.atMost, rfl, rfl⟩
  · exact ⟨.atLeast, rfl, rfl⟩

theorem conjoins_of_comparisonCondition {op : BinaryOp} {left right : Expr} {condition : Condition}
    (hCondition : comparisonCondition op left right = .ok condition) :
    (binary op left right).Conjoins [condition] := by
  simp only [comparisonCondition, Except.bind_eq_ok_iff, Except.mapError_eq_ok_iff,
    Except.pure_eq_ok_iff] at hCondition
  obtain ⟨⟨name, seen, operand⟩, hSide, comparison, hComparison, source, hSource, rfl⟩ := hCondition
  dsimp only at hComparison hSource
  unfold fieldSide at hSide
  split at hSide <;> cases hSide
  · rename_i hField
    rw [eq_field_of_asField? hField, ValueSource.ofExpr_eq_ok hSource, inclusive_eq_ok hComparison]
    exact .fieldFirst name comparison source
  · rename_i hField
    obtain ⟨own, rfl, rfl⟩ := inclusive_mirrored_eq_ok hComparison
    rw [eq_field_of_asField? hField, ValueSource.ofExpr_eq_ok hSource]
    exact .fieldLast name own source

theorem conjoins_of_conjunction (hConditions : predicate.conjunction = .ok conditions) :
    predicate.Conjoins conditions := by
  fun_induction conjunction predicate generalizing conditions with
  | case1 left right ihLeft ihRight =>
      simp only [Except.bind_eq_ok_iff, Except.pure_eq_ok_iff] at hConditions
      obtain ⟨first, hFirst, second, hSecond, rfl⟩ := hConditions
      exact .and (ihLeft hFirst) (ihRight hSecond)
  | case2 op left right hOp hComparison =>
      obtain ⟨condition, hCondition, rfl⟩ := Except.map_eq_ok_iff.mp hConditions
      exact conjoins_of_comparisonCondition hCondition
  | _ => cases hConditions

theorem conditions_of_conjoins (hPredicate : predicate.Conjoins conditions) :
    predicate.conditions = .ok conditions := by
  rw [← conjunction_of_conjoins hPredicate]
  cases hPredicate <;> rfl

theorem ne_nil_of_conjoins (hPredicate : predicate.Conjoins conditions) : conditions ≠ [] := by
  induction hPredicate with
  | fieldFirst name comparison source => exact List.cons_ne_nil _ _
  | fieldLast name comparison source => exact List.cons_ne_nil _ _
  | and _ _ ihLeft _ => exact List.append_ne_nil_of_left_ne_nil ihLeft _

theorem compare_of_conjoins (hPredicate : predicate.Conjoins conditions) :
    ∀ condition ∈ conditions, ∃ comparison, condition.kind = .compare comparison := by
  induction hPredicate with
  | fieldFirst name comparison source => simp
  | fieldLast name comparison source => simp
  | and _ _ ihLeft ihRight =>
      intro condition hCondition
      exact (List.mem_append.mp hCondition).elim (ihLeft condition) (ihRight condition)

end Expr

namespace Condition

/-- The conditions on a field, from left to right. -/
def on (conditions : List Condition) (field : String) : List Condition :=
  conditions.filter fun condition => condition.field == field

/-- Those of the conditions on one field that count. -/
def effective (group : List Condition) : List Condition :=
  match first? group .equal with
  | some equality => [equality]
  | none => (first? group .atLeast).toList ++ (first? group .atMost).toList

/-- Whether a value of the type passes the condition. -/
def Accepts (compareValues : Value → Value → Ordering) (type : DataType) (arguments : List Value)
    (condition : Condition) (value : Value) : Prop :=
  ∃ comparison given bound, condition.kind = .compare comparison ∧
    condition.source.resolve arguments = .ok given ∧ given.coerce? type = some bound ∧
    comparison.accepts (compareValues value bound) = true

theorem first?_eq_some {group : List Condition} {comparison : Comparison} {condition : Condition}
    (hFirst : first? group comparison = some condition) :
    condition ∈ group ∧ condition.kind = .compare comparison :=
  ⟨List.mem_of_find?_eq_some hFirst, by simpa using List.find?_some hFirst⟩

theorem mem_of_mem_effective {group : List Condition} {condition : Condition}
    (hEffective : condition ∈ effective group) : condition ∈ group := by
  unfold effective at hEffective
  cases hEqual : first? group .equal with
  | some equality =>
      rw [hEqual] at hEffective
      exact List.mem_singleton.mp hEffective ▸ (first?_eq_some hEqual).1
  | none =>
      rw [hEqual] at hEffective
      rcases List.mem_append.mp hEffective with hLower | hUpper
      · exact (first?_eq_some (Option.mem_toList.mp hLower)).1
      · exact (first?_eq_some (Option.mem_toList.mp hUpper)).1

end Condition

/-- Whether a row passes the conditions: every field mentioned has an element that passes all those
of its conditions that count. -/
def Table.Satisfies (compareValues : Value → Value → Ordering) (table : Table)
    (conditions : List Condition) (arguments : List Value) (row : Row) : Prop :=
  ∀ condition ∈ conditions, ∃ column, table.column? condition.field = some column ∧
    ∃ element ∈ column.elements row,
      ∀ own ∈ Condition.effective (Condition.on conditions condition.field),
        own.Accepts compareValues column.type arguments element

/-- Whether each value of a key passes the conditions that count on its column. -/
def KeyLayout.Accepts (compareValues : Value → Value → Ordering) (conditions : List Condition)
    (arguments : List Value) : List KeyPart → KeyLayout → List Value → Prop
  | part :: parts, column :: columns, value :: values =>
    (∀ own ∈ Condition.effective (Condition.on conditions part.column),
      own.Accepts compareValues column.type arguments value) ∧
      Accepts compareValues conditions arguments parts columns values
  | _, _, _ => True

/-- Whether an entry stands for elements of a record that pass the conditions. -/
def Slot.Matches (compareValues : Value → Value → Ordering) (slot : Slot)
    (conditions : List Condition) (arguments : List Value) (record : StoredRecord) (entry : Entry) :
    Prop :=
  entry.bookmark = record.bookmark ∧ ∃ values ∈ slot.keyValues record.row,
    slot.index.layout.makeKey values .exact = .ok entry.key ∧
      KeyLayout.Accepts compareValues conditions arguments slot.definition.columns
        slot.index.layout values

theorem Column.exists_mem_elements (column : Column) (row : Row) :
    ∃ element, element ∈ column.elements row := by
  unfold elements Value.contributions
  split
  · split
    · exact ⟨.null, List.mem_singleton_self _⟩
    · rename_i hNonempty
      exact List.exists_mem_of_ne_nil _ (by simpa using hNonempty)
  · exact ⟨_, List.mem_singleton_self _⟩

namespace Slot

variable {compareValues : Value → Value → Ordering} {conditions : List Condition}
  {arguments : List Value} {table : Table} {row : Row} {index : IndexDefinition} {slot : Slot}
  {columns : List Column}

/-- Elements that pass can be chosen for each column apart. -/
theorem exists_chooses_iff {parts : List KeyPart}
    (hParts : List.Forall₂ (fun part column => table.column? part.column = some column)
      parts columns) :
    (∃ values, Chooses row columns values ∧
        KeyLayout.Accepts compareValues conditions arguments parts
          (List.zipWith (fun part column => ⟨column.type, part.direction⟩) parts columns) values) ↔
      List.Forall₂ (fun (part : KeyPart) (column : Column) => ∃ element ∈ column.elements row,
        ∀ own ∈ Condition.effective (Condition.on conditions part.column),
          own.Accepts compareValues column.type arguments element) parts columns := by
  induction hParts with
  | nil => simp [Chooses, KeyLayout.Accepts]
  | cons hColumn _ ih =>
      rw [List.forall₂_cons, ← ih]
      constructor
      · rintro ⟨values, hChooses, hAccepts⟩
        obtain ⟨element, rest, hElement, hRest, rfl⟩ := List.forall₂_cons_left_iff.mp hChooses
        exact ⟨⟨element, hElement, hAccepts.1⟩, rest, hRest, hAccepts.2⟩
      · rintro ⟨⟨element, hElement, hOwn⟩, rest, hRest, hAccepts⟩
        exact ⟨element :: rest, .cons hElement hRest, hOwn, hAccepts⟩

/-- A row passes conditions on key columns exactly when one of its value lists does. -/
theorem KeyedBy.satisfies_iff (hKeyed : slot.KeyedBy table index columns)
    (hCovered : ∀ condition ∈ conditions, ∃ part ∈ index.columns, part.column = condition.field) :
    table.Satisfies compareValues conditions arguments row ↔
      ∃ values, Chooses row columns values ∧
        KeyLayout.Accepts compareValues conditions arguments index.columns slot.index.layout
          values := by
  rw [hKeyed.layout, exists_chooses_iff hKeyed.parts]
  constructor
  · intro hSatisfies
    refine hKeyed.parts.imp fun part column hColumn => ?_
    by_cases hOwn : ∃ condition ∈ conditions, condition.field = part.column
    · obtain ⟨condition, hCondition, hField⟩ := hOwn
      obtain ⟨found, hFound, element, hElement, hAccepts⟩ := hSatisfies condition hCondition
      rw [hField] at hFound hAccepts
      obtain rfl := Option.some.inj (hFound.symm.trans hColumn)
      exact ⟨element, hElement, hAccepts⟩
    · obtain ⟨element, hElement⟩ := column.exists_mem_elements row
      refine ⟨element, hElement, fun own hEffective => absurd ?_ hOwn⟩
      obtain ⟨hOwnCondition, hField⟩ :=
        List.mem_filter.mp (Condition.mem_of_mem_effective hEffective)
      exact ⟨own, hOwnCondition, by simpa using hField⟩
  · intro hChoices condition hCondition
    obtain ⟨part, hPart, hField⟩ := hCovered condition hCondition
    obtain ⟨column, -, hColumn, hElement⟩ :=
      (hKeyed.parts.and hChoices).exists_of_mem_left hPart
    exact ⟨column, hField ▸ hColumn, hField ▸ hElement⟩

end Slot

end IndexedTable

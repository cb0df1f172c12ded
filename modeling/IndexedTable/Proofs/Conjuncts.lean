import IndexedTable.Proofs.Satisfaction
import IndexedTable.Proofs.SuffixKeys
import IndexedTable.Proofs.ValueOrder

/-! The predicates that have conditions. They are the containments in a field and the conjunctions
of inclusive comparisons between a field and a source, however the conjunctions are nested, and they
are true when their conditions hold. Any other predicate is refused for its leftmost conjunct that
is none of these comparisons. -/

namespace IndexedTable

namespace Expr

/-- What a predicate joins by `and`, from left to right. -/
def conjuncts : Expr → List Expr
  | binary .and left right => conjuncts left ++ conjuncts right
  | other => [other]

/-- A comparison between a field and a source, and the condition on the field that it states. -/
inductive States : Expr → Condition → Prop where
  | fieldFirst (name : String) (comparison : Comparison) (source : ValueSource) :
      States (.binary comparison.operator (.field name) source.expr)
        ⟨name, .compare comparison, source⟩
  | fieldLast (name : String) (comparison : Comparison) (source : ValueSource) :
      States (.binary comparison.operator source.expr (.field name))
        ⟨name, .compare comparison.mirrored, source⟩

/-- A predicate with conditions. -/
inductive Decomposes (predicate : Expr) : List Condition → Prop where
  | containment {name : String} {source : ValueSource}
      (hPredicate : predicate = .contains (.field name) source.expr) :
      Decomposes predicate [⟨name, .containment, source⟩]
  | comparisons {conditions : List Condition}
      (hConjuncts : List.Forall₂ States predicate.conjuncts conditions) :
      Decomposes predicate conditions

/-- An inclusive comparison between a field and an operand that is no field. -/
inductive Compares : Expr → Expr → Prop where
  | fieldFirst (name : String) (comparison : Comparison) {operand : Expr}
      (hOperand : ∀ other, operand ≠ .field other) :
      Compares (.binary comparison.operator (.field name) operand) operand
  | fieldLast (name : String) (comparison : Comparison) {operand : Expr}
      (hOperand : ∀ other, operand ≠ .field other) :
      Compares (.binary comparison.operator operand (.field name)) operand

/-- The part of a conjunct that a refusal quotes: the operand, if that is all that is wrong. -/
inductive Quotes (conjunct : Expr) : Expr → Prop where
  | operand {operand : Expr} (hOperand : conjunct.Compares operand) : Quotes conjunct operand
  | whole (hNone : ∀ operand, ¬conjunct.Compares operand) : Quotes conjunct conjunct

/-- The part of a predicate that keeps it from having conditions. -/
inductive Faults (predicate : Expr) : Expr → Prop where
  | haystack {haystack needle : Expr} (hPredicate : predicate = .contains haystack needle)
      (hHaystack : ∀ name, haystack ≠ .field name) : Faults predicate predicate
  | needle {name : String} {needle : Expr} (hPredicate : predicate = .contains (.field name) needle)
      (hNeedle : ∀ source : ValueSource, needle ≠ source.expr) : Faults predicate needle
  /-- The leftmost conjunct that states no condition. -/
  | conjunct {before after : List Expr} {conjunct part : Expr}
      (hPredicate : ∀ haystack needle, predicate ≠ .contains haystack needle)
      (hConjuncts : predicate.conjuncts = before ++ conjunct :: after)
      (hBefore : ∀ earlier ∈ before, ∃ condition, earlier.States condition)
      (hConjunct : ∀ condition, ¬conjunct.States condition) (hPart : conjunct.Quotes part) :
      Faults predicate part

end Expr

/-- Whether the values are related as a comparison asks. -/
def BinaryOp.Relates : BinaryOp → Value → Value → Prop
  | equal, a, b => a.equal b = true
  | notEqual, a, b => a.equal b = false
  | less, a, b => a.order b = .lt
  | atMost, a, b => a.order b ≠ .gt
  | greater, a, b => a.order b = .gt
  | atLeast, a, b => a.order b ≠ .lt
  | _, _, _ => False

/-- A comparison says the same of two values that change places with its operator mirrored. -/
theorem BinaryOp.relates_mirrored (op : BinaryOp) (a b : Value) :
    op.mirrored.Relates b a ↔ op.Relates a b := by
  cases op <;> simp [mirrored, Relates, Value.equal_comm b a, Value.order_swap a b]

variable (fields : String → Value) (arguments : List Value)

/-- The value of an operand, if it is a field or a source. -/
def Expr.operand? : Expr → Option Value
  | field name => some (fields name)
  | literal value => some value
  | argument place => arguments[place.toNat]?
  | thunk t => some (t.eval arguments)
  | _ => none

/-- Whether a predicate is true. A comparison of an operand without a value is not. -/
def Expr.Holds : Expr → Prop
  | binary .and left right => Holds left ∧ Holds right
  | binary .or left right => Holds left ∨ Holds right
  | binary op left right =>
    ∃ a b, left.operand? fields arguments = some a ∧ right.operand? fields arguments = some b ∧
      op.Relates a b
  | unary .not operand => ¬Holds operand
  | contains haystack needle =>
    ∃ whole part, haystack.operand? fields arguments = some whole ∧
      needle.operand? fields arguments = some part ∧ part.Related (· <:+: ·) whole
  | _ => False

/-- Whether a condition holds of its field. -/
def Condition.Holds (condition : Condition) : Prop :=
  ∃ value, condition.source.resolve arguments = .ok value ∧
    match condition.kind with
    | .compare comparison => comparison.operator.Relates (fields condition.field) value
    | .containment => value.Related (· <:+: ·) (fields condition.field)

variable {fields arguments}

theorem ValueSource.operand?_expr {source : ValueSource} {value : Value} :
    source.expr.operand? fields arguments = some value ↔ source.resolve arguments = .ok value := by
  cases source with
  | literal given => simp [expr, Expr.operand?, resolve]
  | thunk t => simp [expr, Expr.operand?, resolve]
  | argument place =>
      rw [expr, Expr.operand?, resolve]
      cases arguments[place.toNat]? <;> simp

theorem ValueSource.ofExpr_expr (source : ValueSource) : ofExpr source.expr = .ok source := by
  cases source <;> rfl

theorem ValueSource.ofExpr_eq_error {operand : Expr} {e : CompileError}
    (hSource : ofExpr operand = .error e) :
    e = .unsupported operand.render .notAValue ∧ ∀ source : ValueSource, operand ≠ source.expr := by
  refine ⟨?_, fun source hExpr => ?_⟩
  · cases operand <;> cases hSource <;> rfl
  · rw [hExpr, ofExpr_expr] at hSource
    cases hSource

namespace Expr

variable {predicate conjunct : Expr} {conditions : List Condition}

theorem conjuncts_ne_nil (predicate : Expr) : predicate.conjuncts ≠ [] := by
  fun_induction conjuncts predicate with
  | case1 left right ihLeft ihRight => simp [ihLeft]
  | case2 other hOther => exact List.cons_ne_nil _ _

theorem conjuncts_and_ne_singleton (left right : Expr) :
    (binary .and left right).conjuncts ≠ [conjunct] := by
  intro hSingle
  have hLength := congrArg List.length hSingle
  have hLeft := List.length_pos_iff.mpr left.conjuncts_ne_nil
  have hRight := List.length_pos_iff.mpr right.conjuncts_ne_nil
  rw [conjuncts, List.length_append, List.length_singleton] at hLength
  omega

theorem conjuncts_of_states {condition : Condition} (hStates : conjunct.States condition) :
    conjunct.conjuncts = [conjunct] := by
  cases hStates with
  | fieldFirst name comparison source => cases comparison <;> rfl
  | fieldLast name comparison source => cases comparison <;> rfl

/-- A conjunction of comparisons states its conditions conjunct by conjunct. -/
theorem conjoins_iff_forall₂ :
    predicate.Conjoins conditions ↔ List.Forall₂ States predicate.conjuncts conditions := by
  constructor
  · intro hPredicate
    induction hPredicate with
    | fieldFirst name comparison source =>
        have hStates := States.fieldFirst name comparison source
        rw [conjuncts_of_states hStates]
        exact .cons hStates .nil
    | fieldLast name comparison source =>
        have hStates := States.fieldLast name comparison source
        rw [conjuncts_of_states hStates]
        exact .cons hStates .nil
    | and _ _ ihLeft ihRight => exact List.rel_append ihLeft ihRight
  · intro hConjuncts
    fun_induction conjuncts predicate generalizing conditions with
    | case1 left right ihLeft ihRight =>
        obtain ⟨first, second, hFirst, hSecond, rfl⟩ := hConjuncts.exists_of_append
        exact .and (ihLeft hFirst) (ihRight hSecond)
    | case2 other hOther =>
        obtain ⟨condition, rest, hStates, hRest, rfl⟩ := List.forall₂_cons_left_iff.mp hConjuncts
        cases hRest
        cases hStates with
        | fieldFirst name comparison source => exact .fieldFirst name comparison source
        | fieldLast name comparison source => exact .fieldLast name comparison source

/-- The conditions of a conjunction are put together from its conjuncts alone. -/
theorem conjunction_eq_mapM :
    predicate.conjunction = (predicate.conjuncts.mapM conjunction).map List.flatten := by
  fun_induction conjuncts predicate with
  | case1 left right ihLeft ihRight =>
      rw [conjunction, ihLeft, ihRight, List.mapM_append]
      cases left.conjuncts.mapM conjunction with
      | error e => rfl
      | ok first =>
          cases right.conjuncts.mapM conjunction with
          | error e => rfl
          | ok second => simp [bind, Except.bind, Except.map, pure, Except.pure]
  | case2 other hOther =>
      rw [List.mapM_cons, List.mapM_nil]
      cases other.conjunction <;> simp [bind, Except.bind, Except.map, pure, Except.pure]

theorem eq_of_conjuncts_eq_singleton (hConjuncts : predicate.conjuncts = [conjunct]) :
    predicate = conjunct := by
  revert hConjuncts
  fun_cases conjuncts predicate with
  | case1 left right =>
      exact fun hConjuncts => absurd hConjuncts (conjuncts_and_ne_singleton left right)
  | case2 other hOther => exact fun hConjuncts => (List.cons.inj hConjuncts).1

theorem conditions_eq_conjunction
    (hPredicate : ∀ haystack needle, predicate ≠ .contains haystack needle) :
    predicate.conditions = predicate.conjunction := by
  cases predicate with
  | contains haystack needle => exact absurd rfl (hPredicate haystack needle)
  | _ => rfl

/-- How the conjuncts are nested does not matter. -/
theorem conditions_congr {other : Expr} (hSame : other.conjuncts = predicate.conjuncts) :
    other.conditions = predicate.conditions := by
  by_cases hAlone : ∃ haystack needle, predicate = .contains haystack needle
  · obtain ⟨haystack, needle, rfl⟩ := hAlone
    rw [eq_of_conjuncts_eq_singleton hSame]
  · have hPredicate : ∀ haystack needle, predicate ≠ .contains haystack needle :=
      fun haystack needle hContains => hAlone ⟨haystack, needle, hContains⟩
    have hOther : ∀ haystack needle, other ≠ .contains haystack needle := by
      rintro haystack needle rfl
      exact hPredicate _ _ (eq_of_conjuncts_eq_singleton hSame.symm)
    rw [conditions_eq_conjunction hPredicate, conditions_eq_conjunction hOther,
      conjunction_eq_mapM, conjunction_eq_mapM, hSame]

theorem asField?_eq_none_iff {expr : Expr} : expr.asField? = none ↔ ∀ name, expr ≠ .field name := by
  cases expr <;> simp [asField?]

theorem conditions_eq_ok_iff :
    predicate.conditions = .ok conditions ↔ predicate.Decomposes conditions := by
  constructor
  · intro hConditions
    by_cases hAlone : ∃ haystack needle, predicate = .contains haystack needle
    · obtain ⟨haystack, needle, rfl⟩ := hAlone
      rw [Expr.conditions] at hConditions
      split at hConditions
      · cases hConditions
      · rename_i name hField
        obtain ⟨source, hSource, rfl⟩ := Except.map_eq_ok_iff.mp hConditions
        refine .containment ?_
        rw [eq_field_of_asField? hField, ValueSource.ofExpr_eq_ok hSource]
    · rw [conditions_eq_conjunction fun haystack needle hContains =>
        hAlone ⟨haystack, needle, hContains⟩] at hConditions
      exact .comparisons (conjoins_iff_forall₂.mp (conjoins_of_conjunction hConditions))
  · rintro (⟨rfl⟩ | hConjuncts)
    · simp only [Expr.conditions, asField?, ValueSource.ofExpr_expr, Except.map]
    · exact conditions_of_conjoins (conjoins_iff_forall₂.mpr hConjuncts)

theorem comparisonCondition_of_compares {op : BinaryOp} {left right operand : Expr}
    (hCompares : (binary op left right).Compares operand) :
    ∃ name comparison, comparisonCondition op left right =
      (ValueSource.ofExpr operand).map fun source => ⟨name, .compare comparison, source⟩ := by
  cases hCompares with
  | fieldFirst name comparison hOperand =>
      have hSide : fieldSide comparison.operator (.field name) right =
          .ok (name, comparison.operator, right) := by
        rw [fieldSide, asField?, asField?_eq_none_iff.mpr hOperand]
      have hInclusive : inclusive comparison.operator = .ok comparison := by
        cases comparison <;> rfl
      refine ⟨name, comparison, ?_⟩
      rw [comparisonCondition, hSide]
      simp only [Except.mapError, bind, Except.bind, hInclusive]
      cases ValueSource.ofExpr _ <;> rfl
  | fieldLast name comparison hOperand =>
      have hSide : fieldSide comparison.operator left (.field name) =
          .ok (name, comparison.operator.mirrored, left) := by
        rw [fieldSide, asField?, asField?_eq_none_iff.mpr hOperand]
      have hInclusive : inclusive comparison.operator.mirrored = .ok comparison.mirrored := by
        cases comparison <;> rfl
      refine ⟨name, comparison.mirrored, ?_⟩
      rw [comparisonCondition, hSide]
      simp only [Except.mapError, bind, Except.bind, hInclusive]
      cases ValueSource.ofExpr _ <;> rfl

theorem compares_of_inclusive {op seen : BinaryOp} {left right operand : Expr} {name : String}
    {comparison : Comparison} (hSide : fieldSide op left right = .ok (name, seen, operand))
    (hInclusive : inclusive seen = .ok comparison) : (binary op left right).Compares operand := by
  unfold fieldSide at hSide
  split at hSide <;> cases hSide
  · rename_i hOperand hField
    rw [eq_field_of_asField? hField, inclusive_eq_ok hInclusive]
    exact .fieldFirst name comparison (asField?_eq_none_iff.mp hOperand)
  · rename_i hOperand hField
    obtain ⟨own, rfl, -⟩ := inclusive_mirrored_eq_ok hInclusive
    rw [eq_field_of_asField? hField]
    exact .fieldLast name own (asField?_eq_none_iff.mp hOperand)

/-- Any other comparison is refused as a whole. -/
theorem comparisonCondition_eq_error {op : BinaryOp} {left right : Expr}
    (hNone : ∀ operand, ¬(binary op left right).Compares operand) :
    ∃ reason, comparisonCondition op left right =
      .error (.unsupported (binary op left right).render reason) := by
  rw [comparisonCondition]
  cases hSide : fieldSide op left right with
  | error reason => exact ⟨reason, rfl⟩
  | ok side =>
      obtain ⟨name, seen, operand⟩ := side
      cases hInclusive : inclusive seen with
      | error reason =>
          refine ⟨reason, ?_⟩
          simp only [Except.mapError, bind, Except.bind, hInclusive]
      | ok comparison => exact absurd (compares_of_inclusive hSide hInclusive) (hNone operand)

theorem not_states_of_error {e : CompileError} (hError : conjunct.conjunction = .error e)
    (condition : Condition) : ¬conjunct.States condition := by
  intro hStates
  have hConjuncts : List.Forall₂ States conjunct.conjuncts [condition] := by
    rw [conjuncts_of_states hStates]
    exact .cons hStates .nil
  rw [conjunction_of_conjoins (conjoins_iff_forall₂.mpr hConjuncts)] at hError
  cases hError

theorem compares_isComparison {operand : Expr} (hCompares : conjunct.Compares operand) :
    ∃ op left right, conjunct = binary op left right ∧ op.isComparison = true := by
  cases hCompares with
  | fieldFirst name comparison => exact ⟨_, _, _, rfl, by cases comparison <;> rfl⟩
  | fieldLast name comparison => exact ⟨_, _, _, rfl, by cases comparison <;> rfl⟩

theorem exists_quotes_of_comparisonCondition {op : BinaryOp} {left right : Expr} {e : CompileError}
    (hError : comparisonCondition op left right = .error e) :
    ∃ part reason, (binary op left right).Quotes part ∧ e = .unsupported part.render reason := by
  by_cases hCompares : ∃ operand, (binary op left right).Compares operand
  · obtain ⟨operand, hCompares⟩ := hCompares
    obtain ⟨name, comparison, hCondition⟩ := comparisonCondition_of_compares hCompares
    rw [hCondition] at hError
    cases hSource : ValueSource.ofExpr operand with
    | error own =>
        rw [hSource] at hError
        cases hError
        exact ⟨operand, _, .operand hCompares, (ValueSource.ofExpr_eq_error hSource).1⟩
    | ok source =>
        rw [hSource] at hError
        cases hError
  · have hNone : ∀ operand, ¬(binary op left right).Compares operand :=
      fun operand hOperand => hCompares ⟨operand, hOperand⟩
    obtain ⟨reason, hCondition⟩ := comparisonCondition_eq_error hNone
    rw [hCondition] at hError
    cases hError
    exact ⟨_, reason, .whole hNone, rfl⟩

/-- A conjunct by itself is refused for the part of it that is quoted. -/
theorem exists_quotes_of_error (hAlone : conjunct.conjuncts = [conjunct]) {e : CompileError}
    (hError : conjunct.conjunction = .error e) :
    ∃ part reason, conjunct.Quotes part ∧ e = .unsupported part.render reason := by
  have hWhole {reason : Unanswerable}
      (hOther : ∀ op left right, conjunct = binary op left right → op.isComparison = false)
      (hSame : (.error (.unsupported conjunct.render reason) :
        Except CompileError (List Condition)) = .error e) :
      ∃ part reason, conjunct.Quotes part ∧ e = .unsupported part.render reason := by
    refine ⟨conjunct, reason, .whole fun operand hCompares => ?_, (Except.error.inj hSame).symm⟩
    obtain ⟨op, left, right, hConjunct, hOp⟩ := compares_isComparison hCompares
    rw [hOther op left right hConjunct] at hOp
    cases hOp
  revert hError
  fun_cases conjunction conjunct with
  | case1 left right =>
      exact absurd hAlone (conjuncts_and_ne_singleton left right)
  | case2 op left right hAnd hComparison =>
      intro hError
      cases hCondition : comparisonCondition op left right with
      | error own =>
          rw [hCondition] at hError
          cases hError
          exact exists_quotes_of_comparisonCondition hCondition
      | ok condition =>
          rw [hCondition] at hError
          cases hError
  | case3 left right =>
      refine hWhole ?_
      rintro _ _ _ ⟨⟩
      rfl
  | case4 op left right hAnd hComparison =>
      refine hWhole ?_
      rintro _ _ _ ⟨⟩
      simpa using hComparison
  | case5 haystack needle =>
      refine hWhole ?_
      rintro _ _ _ ⟨⟩
  | case6 other hAnd hBinary =>
      exact hWhole fun op left right hConjunct => (hBinary op left right hConjunct).elim

/-- The leftmost conjunct that is refused decides. -/
theorem exists_first_of_error {e : CompileError} (hError : predicate.conjunction = .error e) :
    ∃ before conjunct after, predicate.conjuncts = before ++ conjunct :: after ∧
      (∀ earlier ∈ before, ∃ condition, earlier.States condition) ∧
      conjunct.conjuncts = [conjunct] ∧ conjunct.conjunction = .error e := by
  fun_induction conjuncts predicate generalizing e with
  | case1 left right ihLeft ihRight =>
      rw [conjunction] at hError
      cases hLeft : left.conjunction with
      | error own =>
          rw [hLeft] at hError
          cases hError
          obtain ⟨before, conjunct, after, hConjuncts, hRest⟩ := ihLeft hLeft
          exact ⟨before, conjunct, after ++ right.conjuncts, by simp [hConjuncts], hRest⟩
      | ok first =>
          cases hRight : right.conjunction with
          | error own =>
              rw [hLeft, hRight] at hError
              cases hError
              obtain ⟨before, conjunct, after, hConjuncts, hBefore, hRest⟩ := ihRight hRight
              have hFirst := conjoins_iff_forall₂.mp (conjoins_of_conjunction hLeft)
              refine ⟨left.conjuncts ++ before, conjunct, after, by simp [hConjuncts],
                List.forall_mem_append.mpr ⟨fun earlier hEarlier => ?_, hBefore⟩, hRest⟩
              obtain ⟨condition, -, hStates⟩ := hFirst.exists_of_mem_left hEarlier
              exact ⟨condition, hStates⟩
          | ok second =>
              rw [hLeft, hRight] at hError
              cases hError
  | case2 other hOther =>
      have hAlone : other.conjuncts = [other] := by rwa [conjuncts]
      exact ⟨[], other, [], rfl, List.forall_mem_nil _, hAlone, hError⟩

theorem exists_faults_of_error {e : CompileError} (hError : predicate.conditions = .error e) :
    ∃ part reason, predicate.Faults part ∧ e = .unsupported part.render reason := by
  by_cases hContains : ∃ haystack needle, predicate = .contains haystack needle
  · obtain ⟨haystack, needle, rfl⟩ := hContains
    rw [Expr.conditions] at hError
    split at hError
    next hHaystack =>
      cases hError
      exact ⟨_, _, .haystack rfl (asField?_eq_none_iff.mp hHaystack), rfl⟩
    next name hHaystack =>
      cases hSource : ValueSource.ofExpr needle with
      | error own =>
          rw [hSource] at hError
          cases hError
          obtain ⟨rfl, hNeedle⟩ := ValueSource.ofExpr_eq_error hSource
          obtain rfl := eq_field_of_asField? hHaystack
          exact ⟨needle, _, .needle rfl hNeedle, rfl⟩
      | ok source =>
          rw [hSource] at hError
          cases hError
  · have hPredicate : ∀ haystack needle, predicate ≠ .contains haystack needle :=
      fun haystack needle hAlone => hContains ⟨haystack, needle, hAlone⟩
    rw [conditions_eq_conjunction hPredicate] at hError
    obtain ⟨before, conjunct, after, hConjuncts, hBefore, hAlone, hConjunct⟩ :=
      exists_first_of_error hError
    obtain ⟨part, reason, hPart, rfl⟩ := exists_quotes_of_error hAlone hConjunct
    exact ⟨part, reason, .conjunct hPredicate hConjuncts hBefore
      (not_states_of_error hConjunct) hPart, rfl⟩

theorem holds_comparison {comparison : Comparison} {left right : Expr} :
    (binary comparison.operator left right).Holds fields arguments ↔
      ∃ a b, left.operand? fields arguments = some a ∧ right.operand? fields arguments = some b ∧
        comparison.operator.Relates a b := by
  cases comparison <;> rfl

theorem operand?_field {name : String} {value : Value} :
    (field name).operand? fields arguments = some value ↔ fields name = value := by
  rw [operand?, Option.some.injEq]

/-- A comparison is true exactly when the condition that it states holds. -/
theorem States.holds_iff {condition : Condition} (hStates : conjunct.States condition) :
    conjunct.Holds fields arguments ↔ condition.Holds fields arguments := by
  cases hStates with
  | fieldFirst name comparison source =>
      simp only [holds_comparison, operand?_field, ValueSource.operand?_expr, Condition.Holds,
        exists_and_left, exists_eq_left']
  | fieldLast name comparison source =>
      have hMirrored : comparison.mirrored.operator = comparison.operator.mirrored := by
        cases comparison <;> rfl
      simp only [holds_comparison, operand?_field, ValueSource.operand?_expr, Condition.Holds,
        exists_and_left, exists_eq_left', hMirrored, BinaryOp.relates_mirrored]

/-- A predicate is true exactly when its conditions hold. -/
theorem Decomposes.holds_iff (hPredicate : predicate.Decomposes conditions) :
    predicate.Holds fields arguments ↔
      ∀ condition ∈ conditions, condition.Holds fields arguments := by
  cases hPredicate with
  | containment hPredicate =>
      rw [hPredicate, List.forall_mem_singleton]
      simp only [Holds, operand?_field, ValueSource.operand?_expr, Condition.Holds,
        exists_and_left, exists_eq_left']
  | comparisons hConjuncts =>
      fun_induction conjuncts predicate generalizing conditions with
      | case1 left right ihLeft ihRight =>
          obtain ⟨first, second, hFirst, hSecond, rfl⟩ := hConjuncts.exists_of_append
          rw [Holds, ihLeft hFirst, ihRight hSecond, List.forall_mem_append]
      | case2 other hOther =>
          obtain ⟨condition, rest, hStates, hRest, rfl⟩ := List.forall₂_cons_left_iff.mp hConjuncts
          cases hRest
          rw [List.forall_mem_singleton, hStates.holds_iff]

/-- A predicate has conditions exactly when it is a containment in a field or all its conjuncts are
comparisons between a field and a source, and then they are those that the conjuncts state, from
left to right and however they are nested. The predicate is true exactly when they hold. Any other
predicate is refused as unsupported, in the written form of its leftmost conjunct that states no
condition, or of the operand there that is no source. -/
theorem conditions_decompose (predicate : Expr) :
    (∀ conditions, predicate.conditions = .ok conditions ↔ predicate.Decomposes conditions) ∧
      (∀ e, predicate.conditions = .error e →
        ∃ part reason, predicate.Faults part ∧ e = .unsupported part.render reason) ∧
      (∀ other : Expr, other.conjuncts = predicate.conjuncts →
        other.conditions = predicate.conditions) ∧
      ∀ conditions, predicate.Decomposes conditions → ∀ fields arguments,
        (predicate.Holds fields arguments ↔
          ∀ condition ∈ conditions, condition.Holds fields arguments) :=
  ⟨fun _ => conditions_eq_ok_iff, fun _ => exists_faults_of_error, fun _ => conditions_congr,
    fun _ hPredicate _ _ => hPredicate.holds_iff⟩

/-- Conditions that do not depend on the nesting, with the bound on the left exchanged, and a
refusal for an operand in the second of three conjuncts, although the third is no comparison. -/
theorem conditions_decompose_of_nested :
    let atMostFive : Expr := .binary .atLeast (.literal (.int32 5)) (.field "x")
    let equal : Expr := .binary .equal (.field "y") (.argument 0)
    let atLeast : Expr := .binary .atLeast (.field "x") (.literal (.text "a"))
    let sum : Expr := .binary .add (.argument 0) (.literal (.int32 1))
    let left : Expr := .binary .and (.binary .and atMostFive equal) atLeast
    let right : Expr := .binary .and atMostFive (.binary .and equal atLeast)
    let refused : Expr := .binary .and (.binary .and equal (.binary .equal sum (.field "y")))
      (.contains (.field "z") (.argument 1))
    let conditions : List Condition :=
      [⟨"x", .compare .atMost, .literal (.int32 5)⟩, ⟨"y", .compare .equal, .argument 0⟩,
        ⟨"x", .compare .atLeast, .literal (.text "a")⟩]
    let e : CompileError := .unsupported "($0 + 1)" .notAValue
    left.Decomposes conditions ∧ right.conjuncts = left.conjuncts ∧
      right.conditions = .ok conditions ∧
      (∀ fields arguments, left.Holds fields arguments ↔
        ∀ condition ∈ conditions, condition.Holds fields arguments) ∧
      refused.conditions = .error e ∧
      ∃ part reason, refused.Faults part ∧ e = .unsupported part.render reason := by
  intro atMostFive equal atLeast sum left right refused conditions e
  obtain ⟨hConditions, -, hNested, hHolds⟩ := conditions_decompose left
  obtain ⟨-, hRefused, -⟩ := conditions_decompose refused
  have hLeft : left.conditions = .ok conditions := rfl
  have hError : refused.conditions = .error e := rfl
  have hDecomposes := (hConditions conditions).mp hLeft
  exact ⟨hDecomposes, rfl, (hNested right rfl).trans hLeft, hHolds conditions hDecomposes, hError,
    hRefused e hError⟩

end Expr

end IndexedTable

import IndexedTable.Proofs.Conjuncts
import IndexedTable.Proofs.IndexChoice
import Mathlib.Data.List.Perm.Basic

/-! The order of independent conditions. An index is chosen, read and reported on by the conditions
on each field alone, so that conditions on different fields may change places; how a conjunction is
nested, and on which side of a comparison the field stands, matters even less. -/

namespace IndexedTable

namespace BinaryOp

theorem mirrored_mirrored (op : BinaryOp) : op.mirrored.mirrored = op := by
  cases op <;> rfl

theorem isComparison_mirrored (op : BinaryOp) : op.mirrored.isComparison = op.isComparison := by
  cases op <;> rfl

end BinaryOp

namespace Expr

/-- The field that a comparison bounds, if exactly one of its operands is a field. -/
def comparedField? : Expr → Option String
  | binary op left right =>
    match op.isComparison, left.asField?, right.asField? with
    | true, some name, none | true, none, some name => some name
    | _, _, _ => none
  | _ => none

/-- The comparisons that bound a field, from left to right. -/
def bounding (conjuncts : List Expr) (name : String) : List Expr :=
  conjuncts.filter fun conjunct => conjunct.comparedField? == some name

/-- The same conjuncts in another order, in which those on one field keep theirs. -/
structure Reorders (predicate other : Expr) : Prop where
  perm : predicate.conjuncts.Perm other.conjuncts
  inOrder : ∀ name, bounding predicate.conjuncts name = bounding other.conjuncts name

/-- The same conjunct, or a comparison with its operands exchanged and its operator mirrored. -/
inductive Mirrors : Expr → Expr → Prop where
  | same (conjunct : Expr) : Mirrors conjunct conjunct
  | exchanged (op : BinaryOp) (left right : Expr) (hOp : op.isComparison = true) :
      Mirrors (.binary op left right) (.binary op.mirrored right left)

end Expr

/-- Results of compiling that agree: the same plan with the same report, or errors of one kind. -/
inductive Selection.Alike :
    Except CompileError Selection → Except CompileError Selection → Prop where
  | compiled (selection : Selection) : Alike (.ok selection) (.ok selection)
  | refused {e f : CompileError} (hKind : e.kind = f.kind) : Alike (.error e) (.error f)

theorem Selection.Alike.refl (result : Except CompileError Selection) : Alike result result := by
  cases result with
  | error e => exact .refused rfl
  | ok selection => exact .compiled selection

theorem Selection.Alike.eq_ok {selection : Selection} {result : Except CompileError Selection}
    (hAlike : Alike (.ok selection) result) : result = .ok selection := by
  cases hAlike
  rfl

section SameOnFields

variable {conditions others : List Condition}
  (hOn : ∀ field, Condition.on others field = Condition.on conditions field)

include hOn

theorem Condition.mem_iff_of_on {condition : Condition} :
    condition ∈ others ↔ condition ∈ conditions := by
  have hMem (list : List Condition) : condition ∈ on list condition.field ↔ condition ∈ list := by
    simp [on]
  rw [← hMem others, hOn, hMem]

theorem Condition.mem_fields_of_on {field : String} :
    field ∈ fields others ↔ field ∈ fields conditions := by
  simp only [mem_fields, mem_iff_of_on hOn]

/-- What an index answers depends on the conditions on each field. -/
theorem IndexDefinition.answer?_of_on (index : IndexDefinition) (reversed : Bool) :
    index.answer? others reversed = index.answer? conditions reversed := by
  have hGroups : index.groups? others = index.groups? conditions := by
    have hParts : (index.columns.map fun part => (part, Condition.on others part.column)) =
        index.columns.map fun part => (part, Condition.on conditions part.column) := by
      simp only [hOn]
    have hAll (p : Condition → Bool) : others.all p = conditions.all p := by
      rw [Bool.eq_iff_iff, List.all_eq_true, List.all_eq_true]
      simp only [Condition.mem_iff_of_on hOn]
    unfold Condition.on at hParts
    simp only [groups?, hParts, hAll]
  rw [answer?, answer?, hGroups]

/-- So do the choice of an index and the kind of a refusal. -/
theorem Table.selectRange_of_on (table : Table) (reversed : Bool) :
    Selection.Alike (table.selectRange conditions reversed)
      (table.selectRange others reversed) := by
  have hFields (p : String → Bool) :
      (Condition.fields others).all p = (Condition.fields conditions).all p := by
    rw [Bool.eq_iff_iff, List.all_eq_true, List.all_eq_true]
    simp only [Condition.mem_fields_of_on hOn]
  have hUnknown :
      ((Condition.fields others).find? fun field => (table.column? field).isNone).isSome =
        ((Condition.fields conditions).find? fun field => (table.column? field).isNone).isSome := by
    rw [Bool.eq_iff_iff, List.find?_isSome, List.find?_isSome]
    simp only [Condition.mem_fields_of_on hOn]
  unfold selectRange
  simp only [hFields, IndexDefinition.answer?_of_on hOn]
  cases hFind : (Condition.fields conditions).find? fun field => (table.column? field).isNone with
  | some field =>
      obtain ⟨other, hOther⟩ := Option.isSome_iff_exists.mp (hUnknown.trans (hFind ▸ rfl))
      simp only [hOther]
      exact .refused rfl
  | none =>
      have hOther : ((Condition.fields others).find? fun field => (table.column? field).isNone) =
          none := by
        rw [hFind] at hUnknown
        exact Option.isSome_eq_false_iff.mp hUnknown |> Option.isNone_iff_eq_none.mp
      simp only [hOther]
      split
      · exact .refused rfl
      · split
        · exact .refused rfl
        · exact .compiled _

end SameOnFields

namespace Expr

variable {predicate other conjunct : Expr} {condition : Condition} {conditions : List Condition}

theorem States.comparedField? (hStates : conjunct.States condition) :
    conjunct.comparedField? = some condition.field := by
  cases hStates with
  | fieldFirst name comparison source => cases comparison <;> cases source <;> rfl
  | fieldLast name comparison source => cases comparison <;> cases source <;> rfl

theorem States.unique {other : Condition} (hStates : conjunct.States condition)
    (hOther : conjunct.States other) : condition = other := by
  have hConjunction {condition : Condition} (hStates : conjunct.States condition) :
      conjunct.conjunction = .ok [condition] := by
    refine conjunction_of_conjoins (conjoins_iff_forall₂.mpr ?_)
    rw [conjuncts_of_states hStates]
    exact .cons hStates .nil
  have hSame := (hConjunction hStates).symm.trans (hConjunction hOther)
  simpa using hSame

theorem States.of_mirrors (hStates : conjunct.States condition)
    (hMirrors : conjunct.Mirrors other) : other.States condition := by
  cases hMirrors with
  | same => exact hStates
  | exchanged op left right hOp =>
      cases hStates with
      | fieldFirst name comparison source =>
          have hLast := States.fieldLast name comparison.mirrored source
          cases comparison <;> exact hLast
      | fieldLast name comparison source =>
          have hFirst := States.fieldFirst name comparison.mirrored source
          cases comparison <;> exact hFirst

theorem Mirrors.symm (hMirrors : conjunct.Mirrors other) : other.Mirrors conjunct := by
  cases hMirrors with
  | same => exact .same _
  | exchanged op left right hOp =>
      have hBack := Mirrors.exchanged op.mirrored right left (op.isComparison_mirrored.trans hOp)
      rwa [op.mirrored_mirrored] at hBack

theorem Reorders.symm (hReorders : predicate.Reorders other) : other.Reorders predicate :=
  ⟨hReorders.perm.symm, fun name => (hReorders.inOrder name).symm⟩

/-- Conditions that change places leave the others on their field where they are. -/
theorem Reorders.exists_conjoins (hReorders : predicate.Reorders other)
    (hPredicate : predicate.Conjoins conditions) : ∃ others, other.Conjoins others ∧
      ∀ field, Condition.on others field = Condition.on conditions field := by
  have hStates := conjoins_iff_forall₂.mp hPredicate
  obtain ⟨others, hOthers, -⟩ := List.perm_comp_forall₂ hReorders.perm.symm hStates
  refine ⟨others, conjoins_iff_forall₂.mpr hOthers, fun field => ?_⟩
  have hFilter {conjuncts : List Expr} {conditions : List Condition}
      (hStates : List.Forall₂ States conjuncts conditions) :
      List.Forall₂ States (bounding conjuncts field) (Condition.on conditions field) := by
    refine List.rel_filter (fun conjunct condition hOwn => ?_) hStates
    simp [hOwn.comparedField?]
  have hOwn := hFilter hStates
  rw [hReorders.inOrder] at hOwn
  have hUnique : Relator.RightUnique States := fun _ _ _ => States.unique
  exact List.right_unique_forall₂' hUnique (hFilter hOthers) hOwn

theorem conjuncts_contains (haystack needle : Expr) :
    (contains haystack needle).conjuncts = [contains haystack needle] :=
  rfl

theorem Reorders.eq_of_contains {haystack needle : Expr} (hReorders : predicate.Reorders other)
    (hPredicate : predicate = .contains haystack needle) : other = predicate := by
  have hPerm := hReorders.perm
  rw [hPredicate, conjuncts_contains, List.singleton_perm] at hPerm
  rw [hPredicate, eq_of_conjuncts_eq_singleton hPerm.symm]

theorem exists_conjoins_of_mirrors
    (hMirrors : List.Forall₂ Mirrors predicate.conjuncts other.conjuncts)
    (hPredicate : predicate.Conjoins conditions) : ∃ others, other.Conjoins others ∧
      ∀ field, Condition.on others field = Condition.on conditions field := by
  refine ⟨conditions, conjoins_iff_forall₂.mpr ?_, fun _ => rfl⟩
  have hStates := conjoins_iff_forall₂.mp hPredicate
  clear hPredicate
  generalize predicate.conjuncts = conjuncts at hMirrors hStates
  generalize other.conjuncts = mirrored at hMirrors ⊢
  induction hMirrors generalizing conditions with
  | nil => exact hStates
  | cons hFirst _ ih =>
      obtain ⟨condition, rest, hOwn, hRest, rfl⟩ := List.forall₂_cons_left_iff.mp hStates
      exact .cons (hOwn.of_mirrors hFirst) (ih hRest)

theorem eq_of_mirrors_contains {haystack needle : Expr}
    (hMirrors : List.Forall₂ Mirrors predicate.conjuncts other.conjuncts)
    (hPredicate : predicate = .contains haystack needle) : other = predicate := by
  rw [hPredicate, conjuncts_contains] at hMirrors
  obtain ⟨conjunct, rest, hFirst, hRest, hOther⟩ := List.forall₂_cons_left_iff.mp hMirrors
  cases hRest
  cases hFirst
  rw [hPredicate, eq_of_conjuncts_eq_singleton hOther]

end Expr

namespace Table

variable {table : Table} {predicate other : Expr} {conditions : List Condition}
  {direction : Direction}

/-- Two predicates compile alike if both state conditions that are the same on each field, or
neither states any; a containment is like no other predicate. -/
theorem alike_of_exists_conjoins
    (hSame : ∀ conditions, predicate.Conjoins conditions → ∃ others, other.Conjoins others ∧
      ∀ field, Condition.on others field = Condition.on conditions field)
    (hBack : ∀ conditions, other.Conjoins conditions → ∃ others, predicate.Conjoins others)
    (hPredicate : ∀ haystack needle, predicate = .contains haystack needle → other = predicate)
    (hOther : ∀ haystack needle, other = .contains haystack needle → predicate = other) :
    Selection.Alike (table.compile predicate direction) (table.compile other direction) := by
  by_cases hAlone : ∃ haystack needle, predicate = .contains haystack needle
  · obtain ⟨haystack, needle, hAlone⟩ := hAlone
    rw [hPredicate haystack needle hAlone]
    exact .refl _
  by_cases hOtherAlone : ∃ haystack needle, other = .contains haystack needle
  · obtain ⟨haystack, needle, hOtherAlone⟩ := hOtherAlone
    rw [hOther haystack needle hOtherAlone]
    exact .refl _
  have hConjunction := Expr.conditions_eq_conjunction fun haystack needle hContains =>
    hAlone ⟨haystack, needle, hContains⟩
  have hOtherConjunction := Expr.conditions_eq_conjunction fun haystack needle hContains =>
    hOtherAlone ⟨haystack, needle, hContains⟩
  cases hConditions : predicate.conditions with
  | ok conditions =>
      have hConjoins := Expr.conjoins_of_conjunction (hConjunction.symm.trans hConditions)
      obtain ⟨others, hOthers, hOn⟩ := hSame conditions hConjoins
      rw [compile_eq_selectRange hConjoins, compile_eq_selectRange hOthers]
      exact selectRange_of_on hOn table direction.isDescending
  | error e =>
      cases hOthers : other.conditions with
      | ok others =>
          have hConjoins := Expr.conjoins_of_conjunction (hOtherConjunction.symm.trans hOthers)
          obtain ⟨conditions, hStated⟩ := hBack others hConjoins
          rw [Expr.conditions_of_conjoins hStated] at hConditions
          cases hConditions
      | error f =>
          obtain ⟨part, reason, -, rfl⟩ := Expr.exists_faults_of_error hConditions
          obtain ⟨otherPart, otherReason, -, rfl⟩ := Expr.exists_faults_of_error hOthers
          rw [compile, hConditions, compile, hOthers]
          exact .refused rfl

theorem compile_eq_bind (hPredicate : ∀ haystack needle, predicate ≠ .contains haystack needle) :
    table.compile predicate direction =
      predicate.conditions >>= fun conditions =>
        table.select conditions direction.isDescending := by
  cases predicate with
  | contains haystack needle => exact absurd rfl (hPredicate haystack needle)
  | _ => rfl

/-- How the conjuncts are nested changes nothing, refusals included. -/
theorem compile_congr (hSame : other.conjuncts = predicate.conjuncts) :
    table.compile other direction = table.compile predicate direction := by
  by_cases hAlone : ∃ haystack needle, predicate = .contains haystack needle
  · obtain ⟨haystack, needle, rfl⟩ := hAlone
    rw [Expr.eq_of_conjuncts_eq_singleton hSame]
  · have hPredicate : ∀ haystack needle, predicate ≠ .contains haystack needle :=
      fun haystack needle hContains => hAlone ⟨haystack, needle, hContains⟩
    have hOther : ∀ haystack needle, other ≠ .contains haystack needle := by
      rintro haystack needle rfl
      exact hPredicate _ _ (Expr.eq_of_conjuncts_eq_singleton hSame.symm)
    rw [compile_eq_bind hPredicate, compile_eq_bind hOther, Expr.conditions_congr hSame]

/-- The order of independent conditions does not matter. Predicates with the same conjuncts, of
which those on one field come in the same order, have the same plan with the same report, or are
refused by errors of one kind. The nesting of the conjunction changes nothing at all, and a
comparison written the other way round neither the plan nor the report. -/
theorem compile_independent_of_order (table : Table) (predicate other : Expr)
    (direction : Direction) :
    (predicate.Reorders other →
      Selection.Alike (table.compile predicate direction) (table.compile other direction)) ∧
    (other.conjuncts = predicate.conjuncts →
      table.compile other direction = table.compile predicate direction) ∧
    (List.Forall₂ Expr.Mirrors predicate.conjuncts other.conjuncts →
      Selection.Alike (table.compile predicate direction) (table.compile other direction)) := by
  refine ⟨fun hReorders => ?_, compile_congr, fun hMirrors => ?_⟩
  · refine alike_of_exists_conjoins (fun _ => hReorders.exists_conjoins) (fun _ hOther => ?_)
      (fun _ _ => hReorders.eq_of_contains) fun _ _ => hReorders.symm.eq_of_contains
    exact (hReorders.symm.exists_conjoins hOther).imp fun _ => And.left
  · have hBack := (hMirrors.imp fun _ _ => Expr.Mirrors.symm).flip
    refine alike_of_exists_conjoins (fun _ => Expr.exists_conjoins_of_mirrors hMirrors)
      (fun _ hOther => ?_) (fun _ _ => Expr.eq_of_mirrors_contains hMirrors) fun _ _ =>
        Expr.eq_of_mirrors_contains hBack
    exact (Expr.exists_conjoins_of_mirrors hBack hOther).imp fun _ => And.left

/-- Two equalities on one column, of which the second is reported, around a bound on the other. -/
theorem compile_independent_of_order_of_rivals :
    let table : Table :=
      { name := "points"
        columns := [⟨"x", .int32, false, false, 0⟩, ⟨"y", .int32, false, false, 1⟩]
        indices := [⟨"byXY", "points", [⟨"x", .ascending⟩, ⟨"y", .descending⟩], false, .standard,
          1⟩] }
    let equal : Expr := .binary .equal (.field "x") (.argument 0)
    let exchanged : Expr := .binary .equal (.argument 0) (.field "x")
    let atLeast : Expr := .binary .atLeast (.field "y") (.literal (.int32 1))
    let rival : Expr := .binary .equal (.field "x") (.literal (.int32 7))
    let predicate : Expr := .binary .and equal (.binary .and atLeast rival)
    let shape : PlanShape :=
      .range "byXY" (some [.argument 0]) (some [.argument 0, .literal (.int32 1)]) true
    let selection : Selection := ⟨⟨2, false, shape⟩, [⟨"x", "byXY", 1⟩]⟩
    table.compile predicate .descending = .ok selection ∧
      table.compile (.binary .and (.binary .and atLeast equal) rival) .descending = .ok selection ∧
      table.compile (.binary .and (.binary .and equal atLeast) rival) .descending = .ok selection ∧
      table.compile (.binary .and exchanged (.binary .and atLeast rival)) .descending =
        .ok selection := by
  intro table equal exchanged atLeast rival predicate shape selection
  have hCompile : table.compile predicate .descending = .ok selection := rfl
  have hReorders : predicate.Reorders (.binary .and (.binary .and atLeast equal) rival) := by
    refine ⟨.swap atLeast equal [rival], fun name => ?_⟩
    by_cases hFirst : name = "x"
    · rw [hFirst]
      rfl
    · by_cases hSecond : name = "y"
      · rw [hSecond]
        rfl
      · simp [predicate, equal, atLeast, rival, Expr.bounding, Expr.conjuncts,
          Expr.comparedField?, BinaryOp.isComparison, Expr.asField?, Ne.symm hFirst,
          Ne.symm hSecond]
  have hMirrors : List.Forall₂ Expr.Mirrors predicate.conjuncts
      (Expr.binary .and exchanged (.binary .and atLeast rival)).conjuncts :=
    .cons (.exchanged .equal (.field "x") (.argument 0) rfl)
      (.cons (.same atLeast) (.cons (.same rival) .nil))
  have hMoved := (compile_independent_of_order table predicate
    (.binary .and (.binary .and atLeast equal) rival) .descending).1 hReorders
  have hNested := (compile_independent_of_order table predicate
    (.binary .and (.binary .and equal atLeast) rival) .descending).2.1 rfl
  have hExchanged := (compile_independent_of_order table predicate
    (.binary .and exchanged (.binary .and atLeast rival)) .descending).2.2 hMirrors
  rw [hCompile] at hMoved hNested hExchanged
  exact ⟨hCompile, hMoved.eq_ok, hNested, hExchanged.eq_ok⟩

end Table

end IndexedTable

import IndexedTable.Proofs.Results
import IndexedTable.Schema.Draft
import IndexedTable.Store.Basic

/-! What holds of every declared table. Each step of a declaration keeps the indices proper over
the columns declared so far: later columns, nullability and positions do not matter to a key. -/

namespace IndexedTable

/-- Columns that a key cannot tell apart. -/
structure Column.SameShape (a b : Column) : Prop where
  name : a.name = b.name
  type : a.type = b.type
  multiValued : a.multiValued = b.multiValued

/-- Whether a key part names a multi-valued column. -/
def KeyPart.isMultiValued (columns : List Column) (part : KeyPart) : Bool :=
  (columns.find? fun column => column.name == part.column).any (·.multiValued)

/-- An index that the columns of its table allow. -/
structure IndexDefinition.Proper (columns : List Column) (index : IndexDefinition) : Prop where
  named : checkName index.name = .ok ()
  nonempty : index.columns ≠ []
  distinct : (index.columns.map (·.column)).Nodup
  declared : ∀ part ∈ index.columns,
    ((columns.find? fun column => column.name == part.column)).isSome
  multiValued : index.columns.countP (KeyPart.isMultiValued columns) ≤ 1
  clustering : index.primary = true → index.columns.countP (KeyPart.isMultiValued columns) = 0
  tuple : index.isTuple = true → ∃ part column, index.columns = [part] ∧
    (columns.find? fun column => column.name == part.column) = some column ∧
    column.type.supportsPartialMatch = true

/-- Declared columns that are found again under their names in another list. -/
def Column.Extends (columns others : List Column) : Prop :=
  ∀ name column, (columns.find? fun column => column.name == name) = some column →
    ∃ other, (others.find? fun column => column.name == name) = some other ∧ column.SameShape other

theorem IndexDefinition.Proper.extends {columns others : List Column} {index : IndexDefinition}
    (hProper : index.Proper columns) (hExtends : Column.Extends columns others) :
    index.Proper others := by
  have hMultiValued : index.columns.countP (KeyPart.isMultiValued others) =
      index.columns.countP (KeyPart.isMultiValued columns) := by
    refine List.countP_congr fun part hPart => ?_
    obtain ⟨column, hColumn⟩ := Option.isSome_iff_exists.mp (hProper.declared part hPart)
    obtain ⟨other, hOther, hShape⟩ := hExtends _ _ hColumn
    simp [KeyPart.isMultiValued, hColumn, hOther, hShape.multiValued]
  refine ⟨hProper.named, hProper.nonempty, hProper.distinct, ?_, hMultiValued ▸ hProper.multiValued,
    hMultiValued ▸ hProper.clustering, ?_⟩
  · intro part hPart
    obtain ⟨column, hColumn⟩ := Option.isSome_iff_exists.mp (hProper.declared part hPart)
    obtain ⟨other, hOther, -⟩ := hExtends _ _ hColumn
    exact Option.isSome_iff_exists.mpr ⟨other, hOther⟩
  · intro hTuple
    obtain ⟨part, column, hColumns, hColumn, hType⟩ := hProper.tuple hTuple
    obtain ⟨other, hOther, hShape⟩ := hExtends _ _ hColumn
    exact ⟨part, other, hColumns, hOther, hShape.type ▸ hType⟩

theorem Column.extends_append (columns more : List Column) : Extends columns (columns ++ more) := by
  intro name column hColumn
  exact ⟨column, by rw [List.find?_append, hColumn, Option.some_or], rfl, rfl, rfl⟩

theorem Column.extends_of_forall₂ {columns others : List Column}
    (hShapes : List.Forall₂ SameShape columns others) : Extends columns others := by
  intro name column hColumn
  induction hShapes with
  | nil => cases hColumn
  | @cons first other _ _ hShape _ ih =>
      rw [List.find?_cons] at hColumn
      cases hName : first.name == name with
      | true =>
          rw [hName] at hColumn
          obtain rfl := Option.some.inj hColumn
          exact ⟨other, by rw [List.find?_cons, ← hShape.name, hName], hShape⟩
      | false =>
          rw [hName] at hColumn
          obtain ⟨found, hFound, hFoundShape⟩ := ih hColumn
          exact ⟨found, by rw [List.find?_cons, ← hShape.name, hName]; exact hFound, hFoundShape⟩

theorem Column.names_of_forall₂ {columns others : List Column}
    (hShapes : List.Forall₂ SameShape columns others) :
    columns.map (·.name) = others.map (·.name) := by
  induction hShapes with
  | nil => rfl
  | cons hShape _ ih => simp [hShape.name, ih]

namespace TableDraft

/-- What every step of a declaration keeps. -/
structure WellFormed (draft : TableDraft) : Prop where
  columnNames : (draft.columns.map (·.name)).Nodup
  indexNames : (draft.indices.map (·.name)).Nodup
  proper : ∀ index ∈ draft.indices, index.Proper draft.columns
  onePrimary : draft.indices.countP (·.primary) ≤ 1

variable {draft after : TableDraft}

theorem wellFormed_start {name : String} (hStart : start name = .ok draft) : draft.WellFormed := by
  simp only [start, Except.bind_eq_ok_iff, Except.pure_eq_ok_iff] at hStart
  obtain ⟨-, -, rfl⟩ := hStart
  exact ⟨.nil, .nil, by simp, by simp⟩

theorem nodup_concat {names : List String} {name : String} (hNames : names.Nodup)
    (hNew : name ∉ names) : (names ++ [name]).Nodup :=
  List.nodup_append.mpr ⟨hNames, List.nodup_cons.mpr ⟨List.not_mem_nil, .nil⟩, by
    intro other hOther last hLast hSame
    exact hNew (List.mem_singleton.mp hLast ▸ hSame ▸ hOther)⟩

theorem WellFormed.addColumn {column : Column} (hDraft : draft.WellFormed)
    (hAdd : draft.addColumn column = .ok after) : after.WellFormed := by
  simp only [TableDraft.addColumn, Except.bind_eq_ok_iff, Except.guard_eq_ok_iff,
    Except.pure_eq_ok_iff] at hAdd
  obtain ⟨-, -, hNew, rfl⟩ := hAdd
  refine ⟨?_, hDraft.indexNames, ?_, hDraft.onePrimary⟩
  · rw [List.map_append]
    exact nodup_concat hDraft.columnNames (by simpa using hNew)
  · intro index hIndex
    exact (hDraft.proper index hIndex).extends (Column.extends_append _ _)

theorem WellFormed.addNullable {name : String} (hDraft : draft.WellFormed) :
    (draft.addNullable name).WellFormed := by
  have hShapes : List.Forall₂ Column.SameShape draft.columns (draft.addNullable name).columns := by
    refine List.forall₂_map_right_iff.mpr (List.forall₂_same.mpr fun column _ => ?_)
    split
    · exact ⟨rfl, rfl, rfl⟩
    · exact ⟨rfl, rfl, rfl⟩
  refine ⟨Column.names_of_forall₂ hShapes ▸ hDraft.columnNames, hDraft.indexNames, ?_,
    hDraft.onePrimary⟩
  intro index hIndex
  exact (hDraft.proper index hIndex).extends (Column.extends_of_forall₂ hShapes)

/-- The count of multi-valued columns is there only for keys over distinct declared columns. -/
theorem countMultiValued_eq_ok {name : String} {seen : List String} {parts : List KeyPart}
    {count : Nat} (hCount : draft.countMultiValued name seen parts = .ok count) :
    (parts.map (·.column)).Nodup ∧ (∀ part ∈ parts, part.column ∉ seen) ∧
      (∀ part ∈ parts, (draft.columns.find? fun column => column.name == part.column).isSome) ∧
      parts.countP (KeyPart.isMultiValued draft.columns) = count := by
  induction parts generalizing seen count with
  | nil =>
      cases hCount
      exact ⟨.nil, by simp, by simp, rfl⟩
  | cons part parts ih =>
      rw [countMultiValued] at hCount
      by_cases hSeen : seen.contains part.column
      · rw [if_pos hSeen] at hCount
        cases hCount
      · rw [if_neg hSeen] at hCount
        cases hColumn : draft.columns.find? fun column => column.name == part.column with
        | none => simp [hColumn] at hCount
        | some column =>
            simp only [hColumn, Except.bind_eq_ok_iff, Except.pure_eq_ok_iff] at hCount
            obtain ⟨others, hOthers, rfl⟩ := hCount
            obtain ⟨hDistinct, hNew, hDeclared, hRest⟩ := ih hOthers
            refine ⟨?_, ?_, ?_, ?_⟩
            · refine List.nodup_cons.mpr ⟨fun hAgain => ?_, hDistinct⟩
              obtain ⟨other, hOther, hSame⟩ := List.mem_map.mp hAgain
              exact hNew other hOther (hSame ▸ List.mem_cons_self)
            · refine List.forall_mem_cons.mpr ⟨by simpa using hSeen, fun other hOther hIn => ?_⟩
              exact hNew other hOther (List.mem_cons_of_mem _ hIn)
            · exact List.forall_mem_cons.mpr ⟨by simp [hColumn], hDeclared⟩
            · rw [List.countP_cons, hRest]
              cases hMany : column.multiValued <;> simp [KeyPart.isMultiValued, hColumn, hMany]

theorem supportsTuple_eq_true {parts : List KeyPart} (hTuple : draft.supportsTuple parts = true) :
    ∃ part column, parts = [part] ∧
      (draft.columns.find? fun column => column.name == part.column) = some column ∧
      column.type.supportsPartialMatch = true := by
  match parts with
  | [] => cases hTuple
  | [part] =>
      rw [supportsTuple] at hTuple
      cases hColumn : draft.columns.find? fun column => column.name == part.column with
      | none => simp [hColumn] at hTuple
      | some column =>
          simp only [hColumn] at hTuple
          exact ⟨part, column, rfl, hColumn, hTuple⟩
  | _ :: _ :: _ => cases hTuple

theorem WellFormed.addIndex {index : IndexDefinition} (hDraft : draft.WellFormed)
    (hAdd : draft.addIndex index = .ok after) : after.WellFormed := by
  simp only [TableDraft.addIndex, Except.bind_eq_ok_iff, Except.guard_eq_ok_iff,
    Except.pure_eq_ok_iff] at hAdd
  obtain ⟨_, hName, hNew, hNonempty, hSecond, count, hCount, hClustering, hSeveral, hTuple, rfl⟩ :=
    hAdd
  obtain ⟨hDistinct, -, hDeclared, rfl⟩ := countMultiValued_eq_ok hCount
  refine ⟨hDraft.columnNames, ?_, ?_, ?_⟩
  · rw [List.map_append]
    exact nodup_concat hDraft.indexNames (by simpa using hNew)
  · intro other hOther
    rcases List.mem_append.mp hOther with hOld | hLast
    · exact hDraft.proper other hOld
    · obtain rfl := List.mem_singleton.mp hLast
      refine ⟨hName, by simpa using hNonempty, hDistinct, hDeclared, Nat.le_of_not_lt hSeveral,
        ?_, ?_⟩
      · intro hPrimary
        have hPrimary' : index.primary = true := hPrimary
        simpa [hPrimary'] using hClustering
      · intro hIsTuple
        have hIsTuple' : index.isTuple = true := hIsTuple
        have hSupports : draft.supportsTuple index.columns = true := by
          simpa [hIsTuple'] using hTuple
        exact supportsTuple_eq_true hSupports
  · rw [List.countP_append, List.countP_singleton]
    cases hPrimary : index.primary with
    | false => simpa using hDraft.onePrimary
    | true =>
        have hNone : draft.indices.countP (·.primary) = 0 := by
          rw [List.countP_eq_zero]
          simpa [hPrimary] using hSecond
        simp [hNone]

/-- One step of a declaration. -/
theorem WellFormed.declare {step : Declaration} (hDraft : draft.WellFormed)
    (hDeclare : draft.declare step = .ok after) : after.WellFormed := by
  cases step with
  | column | multiValued => exact hDraft.addColumn hDeclare
  | nullable names =>
      obtain rfl := Except.ok.inj hDeclare
      induction names generalizing draft with
      | nil => exact hDraft
      | cons name names ih => exact ih hDraft.addNullable rfl
  | primaryKey | index | orderedIndex | tupleIndex | definition => exact hDraft.addIndex hDeclare

end TableDraft

/-- What holds of every declared table. -/
structure Table.WellFormed (table : Table) : Prop where
  columnNames : (table.columns.map (·.name)).Nodup
  positions : ∀ (place : Nat) (column : Column), table.columns[place]? = some column →
    column.position = place
  indexNames : (table.indices.map (·.name)).Nodup
  proper : ∀ index ∈ table.indices, index.Proper table.columns
  onePrimary : table.indices.countP (·.primary) ≤ 1

theorem TableDraft.WellFormed.complete {draft : TableDraft} {table : Table}
    (hDraft : draft.WellFormed) (hComplete : draft.complete = .ok table) : table.WellFormed := by
  unfold TableDraft.complete at hComplete
  split at hComplete
  · cases hComplete
  · obtain rfl := Except.ok.inj hComplete
    have hShapes : List.Forall₂ Column.SameShape draft.columns
        (draft.columns.mapIdx fun position column => { column with position := position }) := by
      refine List.forall₂_iff_get.mpr ⟨by simp, fun place _ _ => ?_⟩
      simp only [List.get_eq_getElem, List.getElem_mapIdx]
      exact ⟨rfl, rfl, rfl⟩
    refine ⟨Column.names_of_forall₂ hShapes ▸ hDraft.columnNames, ?_, hDraft.indexNames, ?_,
      hDraft.onePrimary⟩
    · intro place column hColumn
      rw [List.getElem?_mapIdx] at hColumn
      obtain ⟨_, -, rfl⟩ := Option.map_eq_some_iff.mp hColumn
      rfl
    · intro index hIndex
      exact (hDraft.proper index hIndex).extends (Column.extends_of_forall₂ hShapes)

theorem Table.wellFormed_of_declare {name : String} {steps : List Declaration} {table : Table}
    (hDeclare : Table.declare name steps = .ok table) : table.WellFormed := by
  have hSteps : ∀ (draft : TableDraft) (number : Nat), draft.WellFormed →
      draft.declareAll number steps = .ok table → table.WellFormed := by
    clear hDeclare
    induction steps with
    | nil =>
        intro draft number hDraft hAll
        exact hDraft.complete (Except.mapError_eq_ok_iff.mp hAll)
    | cons step steps ih =>
        intro draft number hDraft hAll
        simp only [TableDraft.declareAll, Except.bind_eq_ok_iff, Except.mapError_eq_ok_iff] at hAll
        obtain ⟨after, hStep, hRest⟩ := hAll
        exact ih after (number + 1) (hDraft.declare hStep) hRest
  simp only [Table.declare, Except.bind_eq_ok_iff, Except.mapError_eq_ok_iff] at hDeclare
  obtain ⟨draft, hStart, hAll⟩ := hDeclare
  exact hSteps draft 1 (TableDraft.wellFormed_start hStart) hAll

end IndexedTable

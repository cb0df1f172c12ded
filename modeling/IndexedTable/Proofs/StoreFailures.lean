import IndexedTable.Proofs.StoreAgreement

/-! Changes that fail. What can be wrong with a change shows while its place is looked for, before
the first index is written to: a place that was found is free in every index, and the entries of a
stored record are those its row has. So a failure leaves nothing behind. -/

namespace IndexedTable

namespace Store

variable {table : Table} {store : Store} {bookmark : Bookmark} {row : Row}

/-- Whether a change that failed has left the store as it was. -/
def IntactAfter {α : Type} (store : Store) (outcome : Outcome Store α) : Prop :=
  ∀ e, outcome.1 = .error e → outcome.2 = store

theorem intactAfter_error {α : Type} (e : IndexError) :
    store.IntactAfter ((.error e, store) : Outcome Store α) :=
  fun _ _ => rfl

theorem intactAfter_ok {α : Type} {after : Store} (result : α) :
    store.IntactAfter (.ok result, after) := by
  intro e hError
  cases hError

/-- A stored row was given its keys when it was stored, and has them still. -/
theorem Invariant.exists_secondaryKeys (hStore : Invariant table store)
    (hGet : store.get? bookmark = some row) : ∃ keys, store.secondaryKeys row = .ok keys := by
  refine Except.exists_mapM_eq_ok fun slot hSlot => ?_
  exact (hStore.secondary slot hSlot).keyed _ (get?_eq_some_iff.mp hGet)

theorem Invariant.intactAfter_insert (hStore : Invariant table store) (row : Row) :
    store.IntactAfter (store.insert row) := by
  unfold Store.insert
  cases hPlace : store.placeNew row with
  | error e => exact intactAfter_error e
  | ok placement =>
      obtain ⟨after, hAdd, -⟩ := hStore.addRecord_of_placeNew hPlace
      simp only [hAdd]
      split
      · exact intactAfter_ok _
      · exact intactAfter_ok _

theorem Invariant.intactAfter_replace (hStore : Invariant table store) (bookmark : Bookmark)
    (row : Row) : store.IntactAfter (store.replace bookmark row) := by
  unfold Store.replace
  cases hPlace : store.placeAgain bookmark row with
  | error e => exact intactAfter_error e
  | ok placed =>
      obtain ⟨after, hAdd, -⟩ := hStore.addRecord_of_placeAgain hPlace
      simp only [hAdd]
      exact intactAfter_ok _

theorem intactAfter_delete (store : Store) (bookmark : Bookmark) :
    store.IntactAfter (store.delete bookmark) := by
  unfold Store.delete
  cases store.get? bookmark with
  | none => exact intactAfter_error _
  | some row =>
      cases hKeys : store.secondaryKeys row with
      | error e =>
          simp only [hKeys]
          exact intactAfter_error e
      | ok keys =>
          simp only [hKeys]
          exact intactAfter_ok row

/-- A change that fails leaves the records, the indices with their counters and the next number as
they were. It fails before it writes: once a place is found, or a record to delete, every write
succeeds. -/
theorem intactAfter_of_reachable (hStore : Reachable table store) (bookmark : Bookmark) (row : Row) :
    store.IntactAfter (store.insert row) ∧ store.IntactAfter (store.replace bookmark row) ∧
      store.IntactAfter (store.delete bookmark) ∧
      (∀ placement, store.placeNew row = .ok placement →
        (store.addRecord placement).1 = .ok placement.bookmark) ∧
      (∀ oldKeys placement, store.placeAgain bookmark row = .ok (oldKeys, placement) →
        ((store.dropRecord bookmark oldKeys).addRecord placement).1 = .ok placement.bookmark) ∧
      ∀ old, store.get? bookmark = some old → (store.delete bookmark).1 = .ok old := by
  have hInvariant := hStore.invariant
  refine ⟨hInvariant.intactAfter_insert row, hInvariant.intactAfter_replace bookmark row,
    store.intactAfter_delete bookmark, ?_, ?_, ?_⟩
  · intro placement hPlace
    obtain ⟨after, hAdd, -⟩ := hInvariant.addRecord_of_placeNew hPlace
    rw [hAdd]
  · intro oldKeys placement hPlace
    obtain ⟨after, hAdd, -⟩ := hInvariant.addRecord_of_placeAgain hPlace
    rw [hAdd]
  · intro old hGet
    obtain ⟨keys, hKeys⟩ := hInvariant.exists_secondaryKeys hGet
    simp only [Store.delete, hGet, hKeys]

/-- Three failures over a table with a primary key and an index over suffixes: a record with the key
of another, the change of a record to that key, and a value of another type. -/
theorem intactAfter_of_reachable_duplicate :
    let table : Table :=
      { name := "notes"
        columns := [⟨"id", .int32, false, false, 0⟩, ⟨"body", .bytes, true, false, 1⟩]
        indices := [⟨"pkNotes", "notes", [⟨"id", .ascending⟩], true, .standard, 1⟩,
          ⟨"byBody", "notes", [⟨"body", .ascending⟩], false, .tuple, 2⟩] }
    let operations : List StoreOperation :=
      [.insert [.int32 7, .bytes [5, 6, 7]], .insert [.int32 8, .bytes [5]]]
    ∃ first, create table = .ok first ∧
      let store := operations.foldl apply first
      store.size = 2 ∧ store.insert [.int32 8, .null] = (.error (.duplicateKey "pkNotes"), store) ∧
        store.replace ⟨[2, 128, 0, 0, 7]⟩ [.int32 8, .bytes [5]] =
          (.error (.duplicateKey "pkNotes"), store) ∧
        store.replace ⟨[2, 128, 0, 0, 7]⟩ [.int32 7, .int32 5] =
          (.error (.schema (.typeMismatch "body" .bytes (.value (some .int32)))), store) := by
  intro table operations
  obtain ⟨first, hCreate, hSize, hTaken, hMoved, hMistyped⟩ : ∃ first, create table = .ok first ∧
      (operations.foldl apply first).size = 2 ∧
      ((operations.foldl apply first).insert [.int32 8, .null]).1 =
        .error (.duplicateKey "pkNotes") ∧
      ((operations.foldl apply first).replace ⟨[2, 128, 0, 0, 7]⟩ [.int32 8, .bytes [5]]).1 =
        .error (.duplicateKey "pkNotes") ∧
      ((operations.foldl apply first).replace ⟨[2, 128, 0, 0, 7]⟩ [.int32 7, .int32 5]).1 =
        .error (.schema (.typeMismatch "body" .bytes (.value (some .int32)))) :=
    ⟨_, rfl, by decide +kernel, by decide +kernel, by decide +kernel, by decide +kernel⟩
  have hReachable := (Reachable.created hCreate).foldl operations
  have hInsert := (intactAfter_of_reachable hReachable default [.int32 8, .null]).1
  have hReplace (row : Row) :=
    (intactAfter_of_reachable hReachable ⟨[2, 128, 0, 0, 7]⟩ row).2.1
  exact ⟨first, hCreate, hSize, Prod.ext hTaken (hInsert _ hTaken),
    Prod.ext hMoved (hReplace _ _ hMoved), Prod.ext hMistyped (hReplace _ _ hMistyped)⟩

end Store

end IndexedTable

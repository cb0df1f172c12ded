import IndexedTable.Proofs.IndexPositions

/-! Movements of a cursor and the way back. A movement checks the entry it comes to, not the one it
leaves; that one was itself admitted by both bounds, so that the movement back finds it. A movement
that loses the place has seen one entry only, the next one. That no entry further on is admitted
either follows from each bound limiting the end of the scan that it is kept for. -/

namespace IndexedTable

/-- What a bound admits goes on without end on one side. -/
theorem ScanBound.admits_of_le {bound : ScanBound} {low high : Key} (hLe : low ≤ high) :
    match bound.side with
    | .upper => bound.admits high = true → bound.admits low = true
    | .lower => bound.admits low = true → bound.admits high = true := by
  obtain ⟨key, side, inclusive⟩ := bound
  cases side with
  | upper =>
      intro hHigh
      cases inclusive with
      | true => exact decide_eq_true (Std.TransCmp.isLE_trans hLe (of_decide_eq_true hHigh))
      | false => exact decide_eq_true (Std.TransCmp.lt_of_isLE_of_lt hLe (of_decide_eq_true hHigh))
  | lower =>
      intro hLow
      cases inclusive with
      | true => exact decide_eq_true (Std.TransCmp.isLE_trans (of_decide_eq_true hLow) hLe)
      | false => exact decide_eq_true (Std.TransCmp.lt_of_lt_of_isLE (of_decide_eq_true hLow) hLe)

theorem OrderedIndex.path_not {index : OrderedIndex} {reversed : Bool} :
    index.path (!reversed) = (index.path reversed).reverse := by
  cases reversed with
  | false => rfl
  | true => exact (List.reverse_reverse _).symm

/-- The movement of a cursor in the direction of a scan. -/
def CursorOperation.movement (reversed : Bool) : CursorOperation :=
  if reversed then .previous else .next

namespace Cursor

variable {cursor : Cursor} {store : Store} {table : Table} {entry : Entry} {reversed : Bool}

/-- Each bound of the cursor limits the end of a scan that it is kept for. -/
structure Sided (cursor : Cursor) : Prop where
  upper : ∀ bound, cursor.upper = some bound → bound.side = .upper
  lower : ∀ bound, cursor.lower = some bound → bound.side = .lower

theorem sided_of_unbounded (hUpper : cursor.upper = none) (hLower : cursor.lower = none) :
    cursor.Sided where
  upper bound hBound := by
    rw [hUpper] at hBound
    cases hBound
  lower bound hBound := by
    rw [hLower] at hBound
    cases hBound

theorem lasting_sided : Lasting Sided where
  selected _ _ _ := sided_of_unbounded rfl rfl
  landed _ _ _ := sided_of_unbounded rfl rfl
  moved _ reversed hSided := by cases reversed <;> exact ⟨hSided.upper, hSided.lower⟩
  unbounded _ _ := sided_of_unbounded rfl rfl
  bounded cursor bound hSided := by
    unfold setBound
    cases hSide : bound.side with
    | upper => exact ⟨fun other hOther => Option.some.inj hOther ▸ hSide, hSided.lower⟩
    | lower => exact ⟨hSided.upper, fun other hOther => Option.some.inj hOther ▸ hSide⟩

/-- Between two entries that the bounds admit they admit every entry. -/
theorem Sided.within_of_between {first mid last : Entry} (hSided : cursor.Sided)
    (hFirst : first.key ≤ mid.key) (hLast : mid.key ≤ last.key)
    (hFirstWithin : cursor.withinBounds first = true)
    (hLastWithin : cursor.withinBounds last = true) : cursor.withinBounds mid = true := by
  rw [withinBounds, Bool.and_eq_true, Option.all_eq_true, Option.all_eq_true] at *
  constructor
  · intro bound hBound
    have hAdmits := @ScanBound.admits_of_le bound _ _ hLast
    rw [hSided.upper bound hBound] at hAdmits
    exact hAdmits (hLastWithin.1 bound hBound)
  · intro bound hBound
    have hAdmits := @ScanBound.admits_of_le bound _ _ hFirst
    rw [hSided.lower bound hBound] at hAdmits
    exact hAdmits (hFirstWithin.2 bound hBound)

theorem Sided.within_of_precedes {first mid last : Entry} (hSided : cursor.Sided)
    (hFirst : first.precedes reversed mid = true) (hLast : mid.precedes reversed last = true)
    (hFirstWithin : cursor.withinBounds first = true)
    (hLastWithin : cursor.withinBounds last = true) : cursor.withinBounds mid = true := by
  rw [Entry.precedes, beq_iff_eq] at hFirst hLast
  cases reversed with
  | false =>
      exact hSided.within_of_between (Entry.key_le_of_order hFirst) (Entry.key_le_of_order hLast)
        hFirstWithin hLastWithin
  | true =>
      exact hSided.within_of_between (Entry.key_le_of_order hLast) (Entry.key_le_of_order hFirst)
        hLastWithin hFirstWithin

/-- A movement changes nothing but the place. -/
theorem step_eq_self : cursor.step reversed =
    { cursor with current := (cursor.step reversed).current } := by
  cases reversed <;> rfl

/-- The current entry divides the way of a scan. -/
theorem Sound.exists_path_eq (hSound : cursor.Sound store) (hCurrent : cursor.current = some entry)
    (reversed : Bool) : ∃ done tail, cursor.index.path reversed = done ++ entry :: tail :=
  List.append_of_mem (OrderedIndex.mem_path.mpr (hSound.indexed entry hCurrent))

/-- A movement that comes to an entry is undone by the movement the other way. -/
theorem Sound.step_step (hSound : cursor.Sound store) (hCurrent : cursor.current = some entry)
    (hMoved : (cursor.step reversed).current.isSome = true) :
    (cursor.step reversed).step (!reversed) = cursor := by
  obtain ⟨done, tail, hPath⟩ := hSound.exists_path_eq hCurrent reversed
  have hStep := current_step hCurrent hPath
  cases tail with
  | nil =>
      rw [hStep] at hMoved
      cases hMoved
  | cons next tail =>
      have hWithin : cursor.withinBounds next = true := by
        rw [hStep, List.head?_cons, Option.isSome_filter] at hMoved
        exact hMoved
      rw [List.head?_cons, Option.filter_some, if_pos hWithin] at hStep
      -- Seen the other way, the entry left behind is the one after the next.
      have hBack : (cursor.step reversed).index.path (!reversed) =
          tail.reverse ++ next :: entry :: done.reverse := by
        rw [step_eq_self]
        change cursor.index.path (!reversed) = _
        rw [OrderedIndex.path_not, hPath]
        simp
      have hReturn : ((cursor.step reversed).step (!reversed)).current = cursor.current := by
        rw [current_step hStep hBack, List.head?_cons, Option.filter_some, hCurrent]
        refine if_pos ?_
        rw [step_eq_self]
        exact hSound.within entry hCurrent
      rw [step_eq_self, hReturn, step_eq_self]

/-- A movement loses the place exactly where the bounds admit no entry further on. -/
theorem Sound.current_step_eq_none_iff (hSound : cursor.Sound store) (hSided : cursor.Sided)
    (hCurrent : cursor.current = some entry) {done tail : List Entry}
    (hPath : cursor.index.path reversed = done ++ entry :: tail) :
    (cursor.step reversed).current = none ↔ ∀ other ∈ tail, ¬ cursor.withinBounds other = true := by
  rw [current_step hCurrent hPath]
  have hPairs := hPath ▸ @OrderedIndex.path_pairwise cursor.index reversed
  cases tail with
  | nil => simp
  | cons next tail =>
      obtain ⟨-, hRest, -⟩ := List.pairwise_append.mp hPairs
      obtain ⟨hEntry, hTail⟩ := List.pairwise_cons.mp hRest
      have hFirst := hEntry next List.mem_cons_self
      rw [List.head?_cons, Option.filter_some]
      constructor
      · -- The next entry lies between the current one and any other that is admitted.
        intro hNone other hOther hWithin
        rcases List.mem_cons.mp hOther with rfl | hLater
        · simp [hWithin] at hNone
        · have hLast := (List.pairwise_cons.mp hTail).1 other hLater
          have hNext :=
            hSided.within_of_precedes hFirst hLast (hSound.within entry hCurrent) hWithin
          simp [hNext] at hNone
      · intro hNot
        exact if_neg (hNot next List.mem_cons_self)

/-- So it loses the place exactly at the entry that comes first the other way. -/
theorem Sound.current_step_eq_none_iff_isFirst (hSound : cursor.Sound store)
    (hSided : cursor.Sided) (hCurrent : cursor.current = some entry) :
    (cursor.step reversed).current = none ↔
      Entry.IsFirst (cursor.withinBounds · = true) (cursor.index.path !reversed) (some entry) := by
  rw [OrderedIndex.path_not]
  constructor
  · intro hNone
    obtain ⟨done, tail, hPath⟩ := hSound.exists_path_eq hCurrent reversed
    have hBeyond := (hSound.current_step_eq_none_iff hSided hCurrent hPath).mp hNone
    refine ⟨hSound.within entry hCurrent, tail.reverse, done.reverse, by simp [hPath], ?_⟩
    intro other hOther
    exact hBeyond other (List.mem_reverse.mp hOther)
  · rintro ⟨-, front, back, hSplit, hFront⟩
    have hPath : cursor.index.path reversed = back.reverse ++ entry :: front.reverse := by
      rw [← List.reverse_reverse (cursor.index.path reversed), hSplit]
      simp
    refine (hSound.current_step_eq_none_iff hSided hCurrent hPath).mpr fun other hOther => ?_
    exact hFront other (List.mem_reverse.mp hOther)

theorem perform_movement : cursor.perform (.movement reversed) =
    (.ok (some (cursor.step reversed).current.isSome), cursor.step reversed) := by
  cases reversed <;> rfl

theorem Sound.perform_movement_movement (hSound : cursor.Sound store)
    (hCurrent : cursor.current = some entry)
    (hAnswer : (cursor.perform (.movement reversed)).1 = .ok (some true)) :
    (cursor.perform (.movement reversed)).2.perform (.movement !reversed) =
      (.ok (some true), cursor) := by
  rw [perform_movement] at hAnswer ⊢
  have hMoved := Option.some.inj (Except.ok.inj hAnswer)
  rw [perform_movement, hSound.step_step hCurrent hMoved, hCurrent]
  rfl

theorem Sound.perform_movement_eq_false_iff (hSound : cursor.Sound store)
    (hSided : cursor.Sided) (hCurrent : cursor.current = some entry) :
    (cursor.perform (.movement reversed)).1 = .ok (some false) ↔
      Entry.IsFirst (cursor.withinBounds · = true) (cursor.index.path !reversed) (some entry) := by
  rw [← hSound.current_step_eq_none_iff_isFirst hSided hCurrent, perform_movement]
  simp

/-- What the two movements of a cursor at an entry answer: where one comes to another entry, the
other one brings the cursor back as it was, and where one loses the place, the entry is the
outermost of those in the index that the bounds admit. -/
structure Retraces (cursor : Cursor) (entry : Entry) : Prop where
  next : (cursor.perform .next).1 = .ok (some true) →
    (cursor.perform .next).2.perform .previous = (.ok (some true), cursor)
  previous : (cursor.perform .previous).1 = .ok (some true) →
    (cursor.perform .previous).2.perform .next = (.ok (some true), cursor)
  last : (cursor.perform .next).1 = .ok (some false) ↔
    Entry.IsLast (cursor.withinBounds · = true) cursor.index.entries.toList (some entry)
  first : (cursor.perform .previous).1 = .ok (some false) ↔
    Entry.IsFirst (cursor.withinBounds · = true) cursor.index.entries.toList (some entry)

/-- Whatever operations led a cursor to an entry, a movement that comes to another one is undone by
the movement the other way, which leaves the cursor as it was, index and bounds included. A movement
answers false exactly at the last entry, or the first, of those in the index that the bounds
admit. -/
theorem retraces_of_run {name : String} {steps : List Declaration}
    (hDeclare : Table.declare name steps = .ok table) (hReachable : Store.Reachable table store)
    (search : RecordSearch) (operations : List CursorOperation) :
    let cursor := (store.cursor search).run operations
    ∀ entry, cursor.current = some entry → cursor.Retraces entry := by
  intro cursor entry hCurrent
  have hTable := Table.wellFormed_of_declare hDeclare
  have hSound : cursor.Sound store :=
    (sound_cursor store search).run hTable hReachable.invariant operations
  have hSided : cursor.Sided := lasting_sided.run (sided_of_unbounded rfl rfl) operations
  constructor
  · exact @Sound.perform_movement_movement cursor store entry false hSound hCurrent
  · exact @Sound.perform_movement_movement cursor store entry true hSound hCurrent
  · exact @Sound.perform_movement_eq_false_iff cursor store entry false hSound hSided hCurrent
  · exact @Sound.perform_movement_eq_false_iff cursor store entry true hSound hSided hCurrent

/-- The second of two entries that share a key, between an inclusive and an exclusive bound. -/
theorem retraces_of_run_of_shared_key :
    let table : Table :=
      { name := "notes"
        columns := [⟨"id", .int32, false, false, 0⟩, ⟨"tags", .text, false, true, 1⟩]
        indices := [⟨"pkNotes", "notes", [⟨"id", .ascending⟩], true, .standard, 1⟩,
          ⟨"byTag", "notes", [⟨"tags", .ascending⟩], false, .standard, 1⟩] }
    let changes : List StoreOperation :=
      [.insert [.int32 7, .list [.text "a", .text "b"]],
        .insert [.int32 8, .list [.text "b", .text "c"]]]
    let operations : List CursorOperation :=
      [.select (some "byTag"), .seek ⟨[2, 98]⟩ .atOrAfter, .setBound ⟨⟨[2, 99]⟩, .upper, false⟩,
        .setBound ⟨⟨[2, 98, 0, 0]⟩, .lower, true⟩, .next]
    ∃ first, Store.create table = .ok first ∧
      let cursor := ((changes.foldl Store.apply first).cursor .byValues).run operations
      let entry : Entry := ⟨⟨[2, 98, 0, 0]⟩, ⟨[2, 128, 0, 0, 8]⟩⟩
      cursor.current = some entry ∧
        (cursor.perform .previous).2.perform .next = (.ok (some true), cursor) ∧
        Entry.IsLast (cursor.withinBounds · = true) cursor.index.entries.toList (some entry) := by
  intro table changes operations
  have hDeclare : Table.declare "notes" [.column "id" .int32, .multiValued "tags" .text,
      .primaryKey ["id"], .orderedIndex "byTag" [⟨"tags", .ascending⟩]] = .ok table := rfl
  obtain ⟨first, hCreate, hCurrent, hPrevious, hNext⟩ : ∃ first, Store.create table = .ok first ∧
      ((((changes.foldl Store.apply first).cursor .byValues).run operations).current =
        some ⟨⟨[2, 98, 0, 0]⟩, ⟨[2, 128, 0, 0, 8]⟩⟩) ∧
      ((((changes.foldl Store.apply first).cursor .byValues).run operations).perform
        .previous).1 = .ok (some true) ∧
      ((((changes.foldl Store.apply first).cursor .byValues).run operations).perform .next).1 =
        .ok (some false) :=
    ⟨_, rfl, by decide +kernel, by decide +kernel, by decide +kernel⟩
  have hReachable := (Store.Reachable.created hCreate).foldl changes
  have hRetraces := retraces_of_run hDeclare hReachable .byValues operations _ hCurrent
  exact ⟨first, hCreate, hCurrent, hRetraces.previous hPrevious, hRetraces.last.mp hNext⟩

end Cursor

end IndexedTable

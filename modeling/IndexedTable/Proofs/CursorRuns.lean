import IndexedTable.Proofs.RecordSearch

/-! Runs of a cursor: any operations on it, in any order, failed ones included. Wherever it stands,
it stands at an entry of the selected index that both bounds admit. Every movement keeps this, since
a place looked for anew comes without bounds, and a bound that comes later drops a place that it
does not admit. -/

namespace IndexedTable

namespace OrderedIndex

variable {index : OrderedIndex} {entry other : Entry} {reversed : Bool}

theorem mem_of_neighbour? (hNext : index.neighbour? reversed entry = some other) :
    other ∈ index.entries.toList := by
  rw [neighbour?_eq_find?] at hNext
  exact mem_path.mp (List.mem_of_find?_eq_some hNext)

theorem length_le_rank {front back : List Entry} (hSplit : index.entries.toList = front ++ back)
    (hFront : ∀ other ∈ front, other.order entry = .lt) : front.length ≤ index.rank entry := by
  have hCount : front.countP (fun other => Entry.order other entry == .lt) = front.length :=
    List.countP_eq_length.mpr fun other hOther => beq_iff_eq.mpr (hFront other hOther)
  rw [rank, hSplit, List.countP_append, hCount]
  exact Nat.le_add_right _ _

theorem rank_le_length {front back : List Entry} (hSplit : index.entries.toList = front ++ back)
    (hBack : ∀ other ∈ back, other.order entry ≠ .lt) : index.rank entry ≤ front.length := by
  have hCount : back.countP (fun other => Entry.order other entry == .lt) = 0 :=
    List.countP_eq_zero.mpr fun other hOther hLess => hBack other hOther (beq_iff_eq.mp hLess)
  rw [rank, hSplit, List.countP_append, hCount]
  exact List.countP_le_length

/-- An entry stands at the place that its rank names. -/
theorem nth?_rank (hEntry : entry ∈ index.entries.toList) :
    index.nth? (index.rank entry) = some entry := by
  obtain ⟨front, back, hSplit⟩ := List.append_of_mem hEntry
  have hPairs := hSplit ▸ index.entries.ascending
  obtain ⟨-, hBack, hFront⟩ := List.pairwise_append.mp hPairs
  have hLeast := length_le_rank hSplit fun other hOther =>
    hFront other hOther entry List.mem_cons_self
  have hMost : index.rank entry ≤ front.length := by
    refine rank_le_length hSplit fun other hOther => ?_
    rcases List.mem_cons.mp hOther with rfl | hOther
    · simp [Std.ReflCmp.compare_self]
    · have hLess := (List.pairwise_cons.mp hBack).1 other hOther
      simp [Std.OrientedCmp.gt_iff_lt.mpr hLess]
  rw [Nat.le_antisymm hMost hLeast, nth?, hSplit]
  simp

/-- The entry at a place has that many entries before it. -/
theorem rank_of_nth? {place : Nat} (hEntry : index.nth? place = some entry) :
    index.rank entry = place := by
  have hRank := nth?_rank (List.mem_of_getElem? hEntry)
  obtain ⟨hPlace, -⟩ := List.getElem?_eq_some_iff.mp hEntry
  exact ((List.getElem?_inj hPlace index.entries.nodup).mp (hEntry.trans hRank.symm)).symm

end OrderedIndex

/-- One operation on a cursor. -/
inductive CursorOperation where
  | select (name : Option String)
  | clearBounds
  | seek (key : Key) (mode : SeekMode)
  | setBound (bound : ScanBound)
  | first
  | last
  | next
  | previous
  | gotoBookmark (bookmark : Bookmark)
  | gotoBookmarkWithin (bookmark : Bookmark) (interval : KeyInterval) (mode : SeekMode)
  | gotoPosition (numerator denominator : UInt64)

/-- A store lacks only names that were given. -/
theorem Store.slot_eq_error {store : Store} {name : Option String} {e : IndexError}
    (hSlot : store.slot name = .error e) :
    ∃ given, name = some given ∧ e = .unknownIndex given := by
  cases name with
  | none => cases hSlot
  | some given =>
      by_cases hName : given = store.clusteringName
      · rw [Store.slot, if_pos hName] at hSlot
        cases hSlot
      · rw [Store.slot, if_neg hName] at hSlot
        cases hFind : store.secondary.find? fun slot => slot.index.name == given with
        | some slot => simp [hFind] at hSlot
        | none =>
            rw [hFind] at hSlot
            exact ⟨given, rfl, (Except.error.inj hSlot).symm⟩

namespace Cursor

variable {cursor : Cursor} {store : Store} {table : Table} {entry : Entry}

/-- The outcome of an operation. Selecting an index and dropping the bounds give no answer; the
other operations tell whether they came to a place. -/
def perform (cursor : Cursor) : CursorOperation → Outcome Cursor (Option Bool)
  | .select name => ((cursor.select name).1.map fun _ => none, (cursor.select name).2)
  | .clearBounds => (.ok none, cursor.clearBounds)
  | .seek key mode => answer (cursor.seek key mode).placed
  | .setBound bound => answer (cursor.setBound bound).placed
  | .first => answer cursor.first.placed
  | .last => answer cursor.last.placed
  | .next => answer cursor.next.placed
  | .previous => answer cursor.previous.placed
  | .gotoBookmark bookmark => answer (cursor.gotoBookmark bookmark)
  | .gotoBookmarkWithin bookmark interval mode =>
    answer (cursor.gotoBookmarkWithin bookmark interval mode)
  | .gotoPosition numerator denominator =>
    answer (cursor.gotoPosition numerator denominator).placed
where
  answer (outcome : Outcome Cursor Bool) : Outcome Cursor (Option Bool) :=
    (outcome.1.map some, outcome.2)

/-- The cursor that some operations leave behind, also where they fail. -/
def run (cursor : Cursor) (operations : List CursorOperation) : Cursor :=
  operations.foldl (fun cursor operation => (cursor.perform operation).2) cursor

/-- A walk only moves. -/
theorem keeps_of_walks {keeps : Cursor → Prop} {bookmark : Bookmark} {interval : KeyInterval}
    {mode : SeekMode} {start outcome : Outcome Cursor Bool}
    (hMoved : ∀ cursor reversed, keeps cursor → keeps (cursor.step reversed))
    (hKeeps : keeps start.2) (hWalks : Walks bookmark interval mode start outcome) :
    keeps outcome.2 := by
  induction hWalks with
  | failed | lost | keyUnread | left | recordUnread | met => exact hKeeps
  | moved _ _ _ _ _ ih => exact ih (hMoved _ _ hKeeps)

/-- A property of cursors that every part of an operation keeps: going to another index, to a place
looked for anew or to a neighbour, and dropping or setting a bound. -/
structure Lasting (keeps : Cursor → Prop) : Prop where
  selected : ∀ cursor slot, keeps cursor → keeps { cursor.land none with slot := slot }
  landed : ∀ cursor place, keeps cursor → keeps (cursor.land place)
  moved : ∀ cursor reversed, keeps cursor → keeps (cursor.step reversed)
  unbounded : ∀ cursor, keeps cursor → keeps cursor.clearBounds
  bounded : ∀ cursor bound, keeps cursor → keeps (cursor.setBound bound)

namespace Lasting

variable {keeps : Cursor → Prop} (hLasting : Lasting keeps)

include hLasting

theorem gotoBookmarkWithin (hKeeps : keeps cursor) (bookmark : Bookmark) (interval : KeyInterval)
    (mode : SeekMode) : keeps (cursor.gotoBookmarkWithin bookmark interval mode).2 := by
  unfold Cursor.gotoBookmarkWithin
  split
  · unfold gotoComputed
    split
    · exact hLasting.unbounded _ hKeeps
    · cases mode <;> exact hLasting.landed _ _ hKeeps
  · obtain ⟨reversed, rfl⟩ := exists_modeOf_eq mode
    have hEntered : keeps (cursor.enter interval (modeOf reversed)) := by
      rw [modeOf, enter_eq_land]
      exact hLasting.landed _ _ hKeeps
    exact keeps_of_walks hLasting.moved hEntered (walks_walkTo _)

theorem perform (hKeeps : keeps cursor) (operation : CursorOperation) :
    keeps (cursor.perform operation).2 := by
  cases operation with
  | select name =>
      simp only [Cursor.perform, Cursor.select]
      split
      · exact hKeeps
      · split
        · exact hKeeps
        · exact hLasting.selected _ _ hKeeps
  | clearBounds => exact hLasting.unbounded _ hKeeps
  | seek key mode => cases mode <;> exact hLasting.landed _ _ hKeeps
  | setBound bound => exact hLasting.bounded _ bound hKeeps
  | first => exact hLasting.landed _ _ hKeeps
  | last => exact hLasting.landed _ _ hKeeps
  | next => exact hLasting.moved _ false hKeeps
  | previous => exact hLasting.moved _ true hKeeps
  | gotoBookmark bookmark =>
      simp only [Cursor.perform, perform.answer, Cursor.gotoBookmark]
      split
      · exact hLasting.unbounded _ hKeeps
      · exact hLasting.landed _ _ hKeeps
  | gotoBookmarkWithin bookmark interval mode =>
      exact hLasting.gotoBookmarkWithin hKeeps bookmark interval mode
  | gotoPosition numerator denominator =>
      simp only [Cursor.perform, perform.answer, placed, Cursor.gotoPosition]
      split <;> exact hLasting.landed _ _ hKeeps

theorem run (hKeeps : keeps cursor) (operations : List CursorOperation) :
    keeps (cursor.run operations) := by
  induction operations generalizing cursor with
  | nil => exact hKeeps
  | cons operation operations ih => exact ih (hLasting.perform hKeeps operation)

end Lasting

theorem lasting_search (search : RecordSearch) : Lasting fun cursor => cursor.search = search where
  selected _ _ hSearch := hSearch
  landed _ _ hSearch := hSearch
  moved _ reversed hSearch := by cases reversed <;> exact hSearch
  unbounded _ hSearch := hSearch
  bounded _ bound hSearch := by
    unfold setBound
    split <;> exact hSearch

/-- No operation changes how a cursor finds records. -/
theorem search_perform (operation : CursorOperation) :
    (cursor.perform operation).2.search = cursor.search :=
  (lasting_search cursor.search).perform rfl operation

theorem search_run (operations : List CursorOperation) :
    (cursor.run operations).search = cursor.search :=
  (lasting_search cursor.search).run rfl operations

/-- A cursor over a store whose place, if it has one, is an entry of the selected index that both
bounds admit. -/
structure Sound (cursor : Cursor) (store : Store) : Prop extends cursor.On store where
  indexed : ∀ entry, cursor.current = some entry → entry ∈ cursor.index.entries.toList
  within : ∀ entry, cursor.current = some entry → cursor.withinBounds entry = true

theorem sound_cursor (store : Store) (search : RecordSearch) :
    (store.cursor search).Sound store where
  toOn := store.cursor_on search
  indexed _ hNone := by cases hNone
  within _ hNone := by cases hNone

/-- A place looked for anew only has to be in the index. -/
theorem On.sound_land (hCursor : cursor.On store) {place : Option Entry}
    (hPlace : ∀ entry, place = some entry → entry ∈ cursor.index.entries.toList) :
    (cursor.land place).Sound store where
  toOn := ⟨hCursor.store_eq, hCursor.slot_mem⟩
  indexed := hPlace
  within _ _ := rfl

theorem On.sound_enter (hCursor : cursor.On store) (interval : KeyInterval) (mode : SeekMode) :
    (cursor.enter interval mode).Sound store := by
  obtain ⟨reversed, rfl⟩ := exists_modeOf_eq mode
  rw [modeOf, enter_eq_land]
  apply hCursor.sound_land
  intro entry hFind
  exact OrderedIndex.mem_path.mp (List.mem_of_find?_eq_some hFind)

/-- Looking for a key is entering the interval that begins or ends with it. -/
theorem On.sound_seek (hCursor : cursor.On store) (key : Key) (mode : SeekMode) :
    (cursor.seek key mode).Sound store := by
  cases mode with
  | atOrAfter => exact hCursor.sound_enter ⟨some key, none⟩ .atOrAfter
  | atOrBefore => exact hCursor.sound_enter ⟨none, some key⟩ .atOrBefore

theorem On.sound_gotoPosition (hCursor : cursor.On store) (numerator denominator : UInt64) :
    (cursor.gotoPosition numerator denominator).Sound store := by
  unfold gotoPosition
  dsimp only
  split
  · exact hCursor.sound_land fun _ hNone => by cases hNone
  · exact hCursor.sound_land fun _ hPlace => List.mem_of_getElem? hPlace

namespace Sound

theorem select (hSound : cursor.Sound store) (name : Option String) :
    (cursor.select name).2.Sound store := by
  have hOn := hSound.toOn.select name
  unfold Cursor.select at hOn ⊢
  split
  · exact hSound
  · rename_i slot hFound
    simp only [hFound] at hOn
    split
    · exact hSound
    · rename_i hOther
      rw [if_neg hOther] at hOn
      exact ⟨hOn, by rintro _ ⟨⟩, by rintro _ ⟨⟩⟩

theorem step (hSound : cursor.Sound store) (reversed : Bool) :
    (cursor.step reversed).Sound store := by
  rw [step_eq]
  refine ⟨⟨hSound.store_eq, hSound.slot_mem⟩, fun entry hMoved => ?_, fun entry hMoved => ?_⟩
  · obtain ⟨origin, -, hKept⟩ := Option.bind_eq_some_iff.mp hMoved
    exact OrderedIndex.mem_of_neighbour? (Option.filter_eq_some_iff.mp hKept).1
  · obtain ⟨origin, -, hKept⟩ := Option.bind_eq_some_iff.mp hMoved
    exact (Option.filter_eq_some_iff.mp hKept).2

theorem setBound (hSound : cursor.Sound store) (bound : ScanBound) :
    (cursor.setBound bound).Sound store := by
  have hKept : ∀ entry, (cursor.setBound bound).current = some entry →
      cursor.current = some entry ∧ bound.admits entry.key = true := by
    intro entry hPlace
    unfold Cursor.setBound at hPlace
    cases hSide : bound.side <;> simp only [hSide] at hPlace <;>
      exact Option.filter_eq_some_iff.mp hPlace
  refine ⟨?_, fun entry hPlace => ?_, fun entry hPlace => ?_⟩
  · unfold Cursor.setBound
    cases bound.side <;> exact ⟨hSound.store_eq, hSound.slot_mem⟩
  · obtain ⟨hCurrent, -⟩ := hKept entry hPlace
    unfold Cursor.setBound
    cases bound.side <;> exact hSound.indexed entry hCurrent
  · -- The bound on the other side admitted the entry before.
    obtain ⟨hCurrent, hAdmits⟩ := hKept entry hPlace
    have hWithin := hSound.within entry hCurrent
    rw [withinBounds, Bool.and_eq_true] at hWithin
    unfold Cursor.setBound
    cases bound.side with
    | upper => exact Bool.and_eq_true_iff.mpr ⟨hAdmits, hWithin.2⟩
    | lower => exact Bool.and_eq_true_iff.mpr ⟨hWithin.1, hAdmits⟩

end Sound

section Stored

variable (hTable : table.WellFormed) (hStore : Store.Invariant table store)

include hTable hStore

/-- The entries computed for a record are stored in the index. -/
theorem On.gotoComputed_eq_placed (hCursor : cursor.On store) (bookmark : Bookmark)
    (interval : KeyInterval) (mode : SeekMode) :
    ∃ after : Cursor, cursor.gotoComputed bookmark interval mode = after.placed ∧
      after.Sound store := by
  obtain ⟨reversed, rfl⟩ := exists_modeOf_eq mode
  obtain ⟨rfl, hSlot⟩ := hCursor
  have hOn : cursor.On cursor.store := ⟨rfl, hSlot⟩
  refine ⟨cursor.land (cursor.firstOf bookmark interval reversed),
    gotoComputed_eq (Store.indexNames_nodup hTable hStore) hStore hSlot, hOn.sound_land ?_⟩
  intro entry hFirst
  exact (ValueRange.mem_hits.mp (List.mem_of_find?_eq_some hFirst)).1

/-- Going to a record within an interval succeeds. A walk that leaves the interval answers false
where it stands; a search by values answers false only without a place. -/
theorem On.gotoBookmarkWithin_eq_ok (hCursor : cursor.On store) (bookmark : Bookmark)
    (interval : KeyInterval) (mode : SeekMode) :
    ∃ found after, cursor.gotoBookmarkWithin bookmark interval mode = (.ok found, after) ∧
      after.Sound store ∧ (cursor.search = .byValues → found = after.current.isSome) := by
  unfold Cursor.gotoBookmarkWithin
  cases cursor.search with
  | byValues =>
      obtain ⟨after, hGoto, hAfter⟩ :=
        hCursor.gotoComputed_eq_placed hTable hStore bookmark interval mode
      exact ⟨_, after, hGoto, hAfter, fun _ => rfl⟩
  | byWalk =>
      obtain ⟨reversed, rfl⟩ := exists_modeOf_eq mode
      have hMoved (cursor : Cursor) (reversed : Bool) (hSound : cursor.Sound store) :
          (cursor.step reversed).Sound store := hSound.step reversed
      obtain ⟨after, hWalked, -⟩ := @gotoWalked_spec cursor interval reversed bookmark
      have hAfter : (cursor.gotoWalked bookmark interval (modeOf reversed)).2.Sound store :=
        keeps_of_walks hMoved (hCursor.sound_enter interval _) (walks_walkTo _)
      rw [modeOf, hWalked] at hAfter
      exact ⟨_, after, hWalked, hAfter, nofun⟩

/-- No operation loses the invariant. -/
theorem Sound.perform (hSound : cursor.Sound store) (operation : CursorOperation) :
    (cursor.perform operation).2.Sound store := by
  cases operation with
  | select name => exact hSound.select name
  | clearBounds =>
      exact ⟨⟨hSound.store_eq, hSound.slot_mem⟩, hSound.indexed, fun _ _ => rfl⟩
  | seek key mode => exact hSound.toOn.sound_seek key mode
  | setBound bound => exact hSound.setBound bound
  | first => exact hSound.toOn.sound_enter ⟨none, none⟩ .atOrAfter
  | last => exact hSound.toOn.sound_enter ⟨none, none⟩ .atOrBefore
  | next => exact hSound.step false
  | previous => exact hSound.step true
  | gotoBookmark bookmark =>
      obtain ⟨after, hGoto, hAfter⟩ :=
        hSound.toOn.gotoComputed_eq_placed hTable hStore bookmark ⟨none, none⟩ .atOrAfter
      rw [Cursor.perform, gotoBookmark_eq, hGoto]
      exact hAfter
  | gotoBookmarkWithin bookmark interval mode =>
      obtain ⟨found, after, hGoto, hAfter, -⟩ :=
        hSound.toOn.gotoBookmarkWithin_eq_ok hTable hStore bookmark interval mode
      rw [Cursor.perform, hGoto]
      exact hAfter
  | gotoPosition numerator denominator =>
      exact hSound.toOn.sound_gotoPosition numerator denominator

theorem Sound.run (hSound : cursor.Sound store) (operations : List CursorOperation) :
    (cursor.run operations).Sound store := by
  induction operations generalizing cursor with
  | nil => exact hSound
  | cons operation operations ih => exact ih (hSound.perform hTable hStore operation)

/-- Only the selection of a name that the store does not have fails, and that changes nothing. -/
theorem On.unchanged_of_error (hCursor : cursor.On store) {operation : CursorOperation}
    {e : IndexError} (hError : (cursor.perform operation).1 = .error e) :
    (cursor.perform operation).2 = cursor ∧
      ∃ name, operation = .select (some name) ∧ e = .unknownIndex name := by
  cases operation with
  | select name =>
      unfold Cursor.perform Cursor.select at hError ⊢
      cases hSlot : cursor.store.slot name with
      | ok slot =>
          simp only [hSlot] at hError
          split at hError <;> cases hError
      | error error =>
          simp only [hSlot] at hError ⊢
          obtain rfl : error = e := Except.error.inj hError
          obtain ⟨name, rfl, rfl⟩ := Store.slot_eq_error hSlot
          exact ⟨trivial, name, rfl, rfl⟩
  | gotoBookmark bookmark =>
      obtain ⟨after, hGoto, -⟩ :=
        hCursor.gotoComputed_eq_placed hTable hStore bookmark ⟨none, none⟩ .atOrAfter
      rw [Cursor.perform, gotoBookmark_eq, hGoto] at hError
      cases hError
  | gotoBookmarkWithin bookmark interval mode =>
      obtain ⟨found, after, hGoto, -⟩ :=
        hCursor.gotoBookmarkWithin_eq_ok hTable hStore bookmark interval mode
      rw [Cursor.perform, hGoto] at hError
      cases hError
  | _ => cases hError

/-- Where records are found by their values, an answer tells whether there is a place. -/
theorem On.answer_eq_isSome (hCursor : cursor.On store) (hSearch : cursor.search = .byValues)
    {operation : CursorOperation} {found : Bool}
    (hAnswer : (cursor.perform operation).1 = .ok (some found)) :
    found = (cursor.perform operation).2.current.isSome := by
  have hPlaced (after : Cursor) (hOk : (perform.answer after.placed).1 = .ok (some found)) :
      found = after.current.isSome := (Option.some.inj (Except.ok.inj hOk)).symm
  cases operation with
  | select name =>
      obtain ⟨-, -, hNone⟩ := Except.map_eq_ok_iff.mp hAnswer
      cases hNone
  | clearBounds => cases hAnswer
  | gotoBookmark bookmark =>
      obtain ⟨after, hGoto, -⟩ :=
        hCursor.gotoComputed_eq_placed hTable hStore bookmark ⟨none, none⟩ .atOrAfter
      rw [Cursor.perform, gotoBookmark_eq, hGoto] at hAnswer ⊢
      exact hPlaced after hAnswer
  | gotoBookmarkWithin bookmark interval mode =>
      obtain ⟨placed, after, hGoto, -, hPlace⟩ :=
        hCursor.gotoBookmarkWithin_eq_ok hTable hStore bookmark interval mode
      rw [Cursor.perform, hGoto] at hAnswer ⊢
      exact (Option.some.inj (Except.ok.inj hAnswer)).symm.trans (hPlace hSearch)
  | _ => exact hPlaced _ hAnswer

end Stored

/-- A cursor at an entry: the selected index holds it, both bounds admit it, and its key, its
bookmark, the stored record it names and its place in the index can be read. -/
structure PlacedAt (cursor : Cursor) (store : Store) (entry : Entry) : Prop where
  indexed : entry ∈ cursor.index.entries.toList
  upper : ∀ bound, cursor.upper = some bound → bound.admits entry.key = true
  lower : ∀ bound, cursor.lower = some bound → bound.admits entry.key = true
  key : cursor.key = .ok entry.key
  bookmark : cursor.bookmark = .ok entry.bookmark
  row : ∃ row, store.get? entry.bookmark = some row ∧ cursor.row = .ok row
  position : ∃ position, cursor.position = .ok position ∧ position.total = cursor.index.size ∧
    cursor.index.nth? position.before = some entry

theorem Sound.placedAt (hStore : Store.Invariant table store) (hSound : cursor.Sound store)
    (hCurrent : cursor.current = some entry) : cursor.PlacedAt store entry := by
  have hIndexed := hSound.indexed entry hCurrent
  have hWithin := hSound.within entry hCurrent
  rw [withinBounds, Bool.and_eq_true, Option.all_eq_true, Option.all_eq_true] at hWithin
  have hEntry : cursor.entry = .ok entry := by rw [Cursor.entry, hCurrent]
  have hBookmark : cursor.bookmark = .ok entry.bookmark := by
    rw [Cursor.bookmark, hEntry]
    rfl
  obtain ⟨record, hRecord, hOwner⟩ := hStore.exists_owner hSound.slot_mem hIndexed
  have hGet : store.get? entry.bookmark = some record.row :=
    Store.get?_eq_some_iff.mpr (hOwner ▸ hRecord)
  refine ⟨hIndexed, hWithin.1, hWithin.2, ?_, hBookmark, ⟨record.row, hGet, ?_⟩, ?_⟩
  · rw [Cursor.key, hEntry]
    rfl
  · rw [Cursor.row, hBookmark]
    simp only [Except.bind_eq_ok_iff, hSound.store_eq]
    exact ⟨_, rfl, by rw [hGet]; rfl⟩
  · refine ⟨⟨cursor.index.rank entry, cursor.index.size⟩, ?_, rfl, OrderedIndex.nth?_rank hIndexed⟩
    rw [Cursor.position, hEntry]
    rfl

/-- Whatever operations led to it, a cursor with a place is at a stored entry that both bounds
admit. From there an operation answers as it leaves the cursor, with a place or without one, and
the only one to fail is the selection of a name that the store does not have; that changes nothing.
A walk to a record, which the cursor may use instead of the values of the record, answers false
also where it has a place beyond the interval. -/
theorem placedAt_of_run {name : String} {steps : List Declaration}
    (hDeclare : Table.declare name steps = .ok table) (hReachable : Store.Reachable table store)
    (search : RecordSearch) (operations : List CursorOperation) :
    let cursor := (store.cursor search).run operations
    cursor.On store ∧
      (∀ entry, cursor.current = some entry → cursor.PlacedAt store entry) ∧
      ∀ operation : CursorOperation,
        (∀ found, search = .byValues → (cursor.perform operation).1 = .ok (some found) →
          found = (cursor.perform operation).2.current.isSome) ∧
        ∀ e, (cursor.perform operation).1 = .error e →
          (cursor.perform operation).2 = cursor ∧
            ∃ name, operation = .select (some name) ∧ e = .unknownIndex name := by
  intro cursor
  have hTable := Table.wellFormed_of_declare hDeclare
  have hStore := hReachable.invariant
  have hSound : cursor.Sound store := (sound_cursor store search).run hTable hStore operations
  refine ⟨hSound.toOn, fun entry => hSound.placedAt hStore, fun operation => ⟨?_, ?_⟩⟩
  · intro found hSearch
    have hOwn : cursor.search = .byValues := (search_run operations).trans hSearch
    exact hSound.toOn.answer_eq_isSome hTable hStore hOwn
  · intro e
    exact hSound.toOn.unchanged_of_error hTable hStore

/-- A run over two indices, with a bound that the next movement would pass and a name that the
store does not have. -/
theorem placedAt_of_run_of_bound :
    let table : Table :=
      { name := "notes"
        columns := [⟨"id", .int32, false, false, 0⟩, ⟨"tags", .text, false, true, 1⟩]
        indices := [⟨"pkNotes", "notes", [⟨"id", .ascending⟩], true, .standard, 1⟩,
          ⟨"byTag", "notes", [⟨"tags", .ascending⟩], false, .standard, 1⟩] }
    let changes : List StoreOperation :=
      [.insert [.int32 7, .list [.text "a", .text "c"]], .insert [.int32 8, .list [.text "b"]]]
    let operations : List CursorOperation :=
      [.last, .setBound ⟨⟨[3]⟩, .lower, true⟩, .select (some "byTag"),
        .gotoBookmark ⟨[2, 128, 0, 0, 8]⟩, .setBound ⟨⟨[2, 98, 1]⟩, .upper, false⟩,
        .select (some "byName"), .select (some "byTag")]
    ∃ first, Store.create table = .ok first ∧
      let store := changes.foldl Store.apply first
      let cursor := (store.cursor .byValues).run operations
      cursor.PlacedAt store ⟨⟨[2, 98, 0, 0]⟩, ⟨[2, 128, 0, 0, 8]⟩⟩ ∧
        (cursor.perform .next).2.current = none ∧
        (cursor.perform (.select (some "byName"))).2 = cursor := by
  intro table changes operations
  have hDeclare : Table.declare "notes" [.column "id" .int32, .multiValued "tags" .text,
      .primaryKey ["id"], .orderedIndex "byTag" [⟨"tags", .ascending⟩]] = .ok table := rfl
  obtain ⟨first, hCreate, hCurrent, hNext, hUnknown⟩ : ∃ first, Store.create table = .ok first ∧
      ((((changes.foldl Store.apply first).cursor .byValues).run operations).current =
        some ⟨⟨[2, 98, 0, 0]⟩, ⟨[2, 128, 0, 0, 8]⟩⟩) ∧
      ((((changes.foldl Store.apply first).cursor .byValues).run operations).perform .next).1 =
        .ok (some false) ∧
      ((((changes.foldl Store.apply first).cursor .byValues).run operations).perform
        (.select (some "byName"))).1 = .error (.unknownIndex "byName") :=
    ⟨_, rfl, by decide +kernel, by decide +kernel, by decide +kernel⟩
  have hReachable := (Store.Reachable.created hCreate).foldl changes
  obtain ⟨-, hPlaced, hPerform⟩ := placedAt_of_run hDeclare hReachable .byValues operations
  refine ⟨first, hCreate, hPlaced _ hCurrent, ?_, ((hPerform _).2 _ hUnknown).1⟩
  have hPassed := ((hPerform .next).1 false rfl hNext).symm
  exact Option.isNone_iff_eq_none.mp (Option.isSome_eq_false_iff.mp hPassed)

end Cursor

end IndexedTable

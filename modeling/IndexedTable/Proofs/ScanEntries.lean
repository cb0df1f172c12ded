import IndexedTable.Proofs.CursorPath
import IndexedTable.Proofs.ScanCalls
import IndexedTable.Proofs.TableSlots

/-! A scan to its end. What is left of a scan is the list of the entries its cursor still meets;
each step takes the entries of records already returned off that list, and then one more. -/

namespace IndexedTable

namespace Scan

variable {scan : Scan} {entry : Entry} {rest : List Entry}

/-- The entries of records that were not met before, each record with its first entry. -/
def unseen (seen : SeenBookmarks) : List Entry → List Entry
  | [] => []
  | entry :: rest =>
    if seen.contains entry.bookmark then unseen seen rest
    else entry :: unseen (seen.insert entry.bookmark) rest

/-- Those of the entries ahead that a scan returns. -/
def kept (scan : Scan) (rest : List Entry) : List Entry :=
  if scan.filter.distinct then unseen scan.seen rest else rest

/-- The entries that a scan meets from now on. -/
def Meets (scan : Scan) (rest : List Entry) : Prop :=
  ∃ after, scan.advance = (.ok (!rest.isEmpty), after) ∧ after.store = scan.cursor.store ∧
    after.Reads scan.filter.strategy.reversed rest

theorem meets_of_reads (hPhase : scan.phase = .positioned)
    (hReads : scan.cursor.Reads scan.filter.strategy.reversed (entry :: rest)) :
    scan.Meets rest := by
  refine ⟨scan.cursor.step scan.filter.strategy.reversed, ?_, ?_, hReads.step⟩
  · rw [advance, hPhase]
    exact hReads.step.placed
  · rw [Cursor.step_eq]

/-- What a search for the next entry comes to, if these are the entries still to return. -/
def Finds (scan : Scan) (found : Option (Except IndexError Bookmark) × Scan) : List Entry → Prop
  | [] => found.1 = none
  | entry :: others => ∃ after ahead,
      found = (some (.ok entry.bookmark), after) ∧ after.filter = scan.filter ∧
        after.cursor.store = scan.cursor.store ∧ after.phase = .positioned ∧
        after.cursor.Reads scan.filter.strategy.reversed (entry :: ahead) ∧
        after.kept ahead = others

theorem Finds.of_placedAt {found : Option (Except IndexError Bookmark) × Scan} {cursor : Cursor}
    {entries : List Entry} (hStore : cursor.store = scan.cursor.store)
    (hFinds : (scan.placedAt cursor).Finds found entries) : scan.Finds found entries := by
  cases entries with
  | nil => exact hFinds
  | cons entry others =>
      obtain ⟨after, ahead, hFound, hFilter, hAfter, hPhase, hReads, hOthers⟩ := hFinds
      exact ⟨after, ahead, hFound, hFilter, hAfter.trans hStore, hPhase, hReads, hOthers⟩

/-- A step to an entry that is not to be skipped returns it. -/
theorem finds_of_fresh {cursor : Cursor}
    (hAdvance : scan.advance = (.ok true, cursor)) (hStore : cursor.store = scan.cursor.store)
    (hReads : cursor.Reads scan.filter.strategy.reversed (entry :: rest))
    (hFresh : (scan.filter.distinct && scan.seen.contains entry.bookmark) = false) :
    scan.Finds scan.next (scan.kept (entry :: rest)) := by
  have hBookmark := hReads.bookmark_eq
  cases hDistinct : scan.filter.distinct with
  | false =>
      rw [kept, hDistinct, if_neg (by decide)]
      refine ⟨scan.placedAt cursor, rest, ?_, rfl, hStore, rfl, hReads, ?_⟩
      · exact (Answers.returned hAdvance hBookmark hDistinct).next_eq
      · simp [kept, placedAt, hDistinct]
  | true =>
      have hSeen : scan.seen.contains entry.bookmark = false := by simpa [hDistinct] using hFresh
      rw [kept, hDistinct, if_pos rfl, unseen, hSeen, if_neg (by decide)]
      refine ⟨{ scan.placedAt cursor with seen := scan.seen.insert entry.bookmark }, rest, ?_, rfl,
        hStore, rfl, hReads, ?_⟩
      · exact (Answers.first hAdvance hBookmark hDistinct hSeen).next_eq
      · simp [kept, placedAt, hDistinct]

/-- A step to an entry of a record that was returned before skips it. -/
theorem next_of_seen {cursor : Cursor} (hAdvance : scan.advance = (.ok true, cursor))
    (hReads : cursor.Reads scan.filter.strategy.reversed (entry :: rest))
    (hSeen : (scan.filter.distinct && scan.seen.contains entry.bookmark) = true) :
    scan.next = (scan.placedAt cursor).next ∧
      scan.kept (entry :: rest) = (scan.placedAt cursor).kept rest := by
  obtain ⟨hDistinct, hMet⟩ := Bool.and_eq_true_iff.mp hSeen
  constructor
  · exact (Answers.skipped hAdvance hReads.bookmark_eq hDistinct hMet
      (answers_next _)).next_eq
  · simp [kept, unseen, hDistinct, hMet, placedAt]

/-- The next entry to return ends a search that skips the entries before it. -/
theorem next_spec (hMeets : scan.Meets rest) : scan.Finds scan.next (scan.kept rest) := by
  induction rest generalizing scan with
  | nil =>
      obtain ⟨cursor, hAdvance, -, -⟩ := hMeets
      have hKept : scan.kept [] = [] := by
        unfold kept
        split <;> rfl
      rw [hKept, (Answers.ended hAdvance).next_eq]
      rfl
  | cons entry rest ih =>
      obtain ⟨cursor, hAdvance, hStore, hReads⟩ := hMeets
      cases hSkip : scan.filter.distinct && scan.seen.contains entry.bookmark with
      | false => exact finds_of_fresh hAdvance hStore hReads hSkip
      | true =>
          obtain ⟨hNext, hKept⟩ := next_of_seen hAdvance hReads hSkip
          rw [hNext, hKept]
          exact (ih (meets_of_reads rfl hReads)).of_placedAt hStore

/-- All that is left of a scan, if the limit leaves room to meet its end. -/
theorem take_spec {limit : Nat} (hMeets : scan.Meets rest)
    (hLimit : (scan.kept rest).length < limit) :
    (take limit scan).items = (scan.kept rest).map (fun entry => .ok entry.bookmark) ∧
      (take limit scan).ended = true := by
  induction limit generalizing scan rest with
  | zero => cases hLimit
  | succ limit ih =>
      have hNext := next_spec hMeets
      rw [take]
      cases hKept : scan.kept rest with
      | nil =>
          rw [hKept] at hNext
          have hEnd : scan.next = (none, scan.next.2) := Prod.ext hNext rfl
          rw [hEnd]
          exact ⟨rfl, rfl⟩
      | cons entry others =>
          rw [hKept] at hNext
          obtain ⟨after, ahead, hResult, hFilter, -, hPhase, hReads, hOthers⟩ := hNext
          rw [hKept, List.length_cons] at hLimit
          rw [← hFilter] at hReads
          obtain ⟨hItems, hEnded⟩ := ih (meets_of_reads hPhase hReads) (by rw [hOthers]; omega)
          simp [hResult, hItems, hEnded, hOthers]

theorem contains_insert (seen : SeenBookmarks) (a b : Bookmark) :
    (seen.insert a).contains b = (decide (a = b) || seen.contains b) := by
  unfold SeenBookmarks.insert
  cases hSeen : seen.contains a with
  | true =>
      by_cases hSame : a = b
      · subst b
        simp [hSeen]
      · simp [hSame]
  | false => simp [SeenBookmarks.contains]

/-- A scan without repetition keeps the first entry of each record that was not met before. -/
theorem mem_unseen {seen : SeenBookmarks} : entry ∈ unseen seen rest ↔
    seen.contains entry.bookmark = false ∧
      rest.find? (fun other => decide (other.bookmark = entry.bookmark)) = some entry := by
  induction rest generalizing seen with
  | nil => simp [unseen]
  | cons head rest ih =>
      rw [unseen]
      by_cases hSame : head.bookmark = entry.bookmark
      · rw [List.find?_cons_of_pos (by simpa using hSame), hSame]
        cases hSeen : seen.contains entry.bookmark with
        | true => simp [ih, hSeen]
        | false =>
            simp [ih, contains_insert]
            exact eq_comm
      · rw [List.find?_cons_of_neg (by simpa using hSame)]
        cases hSeen : seen.contains head.bookmark with
        | true => simp [ih]
        | false =>
            have hOther : entry ≠ head := fun h => hSame (congrArg Entry.bookmark h).symm
            simp [ih, contains_insert, hSame, hOther]

theorem unseen_sublist {seen : SeenBookmarks} : (unseen seen rest).Sublist rest := by
  induction rest generalizing seen with
  | nil => exact .slnil
  | cons head rest ih =>
      rw [unseen]
      split
      · exact ih.cons head
      · exact ih.cons_cons head

theorem kept_sublist : (scan.kept rest).Sublist rest := by
  unfold kept
  split
  · exact unseen_sublist
  · exact List.Sublist.refl rest

end Scan

namespace ScanStrategy

theorem reversed_valueRange (strategy : ScanStrategy) :
    strategy.valueRange.reversed = strategy.reversed := by
  cases strategy <;> rfl

end ScanStrategy

namespace Store

variable {store : Store}

theorem size_le_entryCount {slot : Slot} (hSlot : slot ∈ store.clustering :: store.secondary) :
    slot.index.size ≤ Scan.entryCount store := by
  unfold Scan.entryCount
  generalize store.clustering :: store.secondary = slots at hSlot ⊢
  induction slots with
  | nil => cases hSlot
  | cons first slots ih =>
      rw [List.foldr_cons]
      rcases List.mem_cons.mp hSlot with rfl | hSlot
      · exact Nat.le_add_right _ _
      · exact Nat.le_add_left_of_le (ih hSlot)

end Store

/-- A cursor over a store, on one of the indices that the store has. -/
structure Cursor.On (cursor : Cursor) (store : Store) : Prop where
  store_eq : cursor.store = store
  slot_mem : cursor.slot ∈ store.clustering :: store.secondary

theorem Store.cursor_on (store : Store) (search : RecordSearch) : (store.cursor search).On store :=
  ⟨rfl, List.mem_cons_self⟩

theorem Cursor.On.select {cursor : Cursor} {store : Store} (hCursor : cursor.On store)
    (name : Option String) : (cursor.select name).2.On store := by
  obtain ⟨rfl, hSlot⟩ := hCursor
  unfold Cursor.select
  cases hFound : cursor.store.slot name with
  | error e => exact ⟨rfl, hSlot⟩
  | ok slot =>
      dsimp only
      split
      · exact ⟨rfl, hSlot⟩
      · exact ⟨rfl, Store.slot_mem hFound⟩

namespace ValueRange

variable {range : ValueRange} {cursor : Cursor} {slot : Slot} {interval : KeyInterval}

/-- The keys of a range under a key layout. -/
def intervalFor (range : ValueRange) (layout : KeyLayout) : Except IndexError KeyInterval := do
  let start ← range.start.mapM fun (values, limit) => layout.makeKey values limit
  let stop ← range.stop.mapM fun (values, limit) => layout.makeKey values limit
  return ⟨start, stop⟩

/-- However a cursor stands, preparing it selects the index of the range. -/
theorem prepare_eq_ok (hNames : cursor.store.indexNames.Nodup)
    (hCursor : cursor.slot ∈ cursor.store.clustering :: cursor.store.secondary)
    (hSlot : cursor.store.slot range.index = .ok slot)
    (hInterval : range.intervalFor slot.index.layout = .ok interval) :
    ∃ prepared, range.prepare cursor = (.ok interval, prepared) ∧
      prepared.store = cursor.store ∧ prepared.slot = slot := by
  unfold prepare Cursor.select
  rw [hSlot]
  by_cases hName : slot.index.name = cursor.index.name
  · obtain rfl := Store.slot_eq_of_name_eq hNames (Store.slot_mem hSlot) hCursor hName
    simp only [if_pos hName]
    exact ⟨_, Prod.ext hInterval rfl, rfl, rfl⟩
  · simp only [if_neg hName]
    exact ⟨_, Prod.ext hInterval rfl, rfl, rfl⟩

end ValueRange

/-- A scan comes to its end within the limit it is given. -/
theorem Scan.toEnd_of_meets {scan : Scan} {rest : List Entry} (hMeets : scan.Meets rest)
    (hLength : rest.length ≤ entryCount scan.cursor.store) :
    scan.toEnd.items = (scan.kept rest).map (fun entry => .ok entry.bookmark) ∧
      scan.toEnd.ended = true := by
  have hKept : (scan.kept rest).length ≤ rest.length := kept_sublist.length_le
  exact take_spec hMeets (by omega)

namespace ValueRange

variable {slot : Slot} {store : Store} {interval : KeyInterval} {reversed : Bool}

theorem length_hits_le (hSlot : slot ∈ store.clustering :: store.secondary) :
    (hits slot.index interval reversed).length ≤ Scan.entryCount store := by
  have hPath : (hits slot.index interval reversed).length ≤ slot.index.size := by
    rw [← @OrderedIndex.length_path slot.index reversed]
    exact List.length_filter_le _ _
  exact Nat.le_trans hPath (Store.size_le_entryCount hSlot)

end ValueRange

namespace Filter

variable {filter : Filter} {cursor : Cursor} {slot : Slot} {interval : KeyInterval}

/-- A scan meets the entries of its interval, in its direction. -/
theorem meets_scan (hNames : cursor.store.indexNames.Nodup)
    (hCursor : cursor.slot ∈ cursor.store.clustering :: cursor.store.secondary)
    (hSlot : cursor.store.slot filter.strategy.valueRange.index = .ok slot)
    (hInterval : filter.strategy.valueRange.intervalFor slot.index.layout = .ok interval) :
    (filter.scan cursor).Meets
      (ValueRange.hits slot.index interval filter.strategy.reversed) := by
  obtain ⟨prepared, hPrepare, hStore, rfl⟩ :=
    ValueRange.prepare_eq_ok hNames hCursor hSlot hInterval
  obtain ⟨after, hApply, hAfterStore, -, hReads⟩ := ValueRange.applyFromStart_reads hPrepare
  rw [ScanStrategy.reversed_valueRange] at hApply hReads
  exact ⟨after, hApply, hAfterStore.trans hStore, hReads⟩

/-- A scan returns the records of the entries in its interval, in its direction and without an
error; where each record counts once, by its first entry. -/
theorem toEnd_scan (hNames : cursor.store.indexNames.Nodup)
    (hCursor : cursor.slot ∈ cursor.store.clustering :: cursor.store.secondary)
    (hSlot : cursor.store.slot filter.strategy.valueRange.index = .ok slot)
    (hInterval : filter.strategy.valueRange.intervalFor slot.index.layout = .ok interval) :
    (filter.scan cursor).toEnd.items =
        ((filter.scan cursor).kept
          (ValueRange.hits slot.index interval filter.strategy.reversed)).map
          (fun entry => .ok entry.bookmark) ∧
      (filter.scan cursor).toEnd.ended = true :=
  Scan.toEnd_of_meets (meets_scan hNames hCursor hSlot hInterval)
    (ValueRange.length_hits_le (Store.slot_mem hSlot))

end Filter

end IndexedTable

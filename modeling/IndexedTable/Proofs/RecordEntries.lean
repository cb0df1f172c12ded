import IndexedTable.Proofs.RecordWalks
import IndexedTable.Proofs.ScanEntries
import IndexedTable.Proofs.TableSlots
import Mathlib.Data.List.TakeWhile

/-! Going to a record within an interval. Whichever way a cursor searches, it comes to the first
entry of the record, in the direction of the scan, among the entries of the interval. -/

namespace IndexedTable

/-- The entries of a stored record lie under the keys of its row. -/
theorem Slot.AgreesWith.mem_iff_of_bookmark {slot : Slot}
    {records : OrderedSet StoredRecord StoredRecord.order} {record : StoredRecord} {keys : KeySet}
    {entry : Entry} (hAgrees : slot.AgreesWith records.toList) (hRecord : record ∈ records.toList)
    (hKeys : slot.keysFor record.row = .ok keys) (hSame : entry.bookmark = record.bookmark) :
    entry ∈ slot.index.entries.toList ↔ entry.key ∈ keys.toList := by
  rw [hAgrees.mem_iff]
  constructor
  · rintro ⟨other, hOther, own, hOwn, hKey, hOwner⟩
    obtain rfl := StoredRecord.eq_of_bookmark_eq hOther hRecord (hOwner.symm.trans hSame)
    obtain rfl := Except.ok.inj (hKeys.symm.trans hOwn)
    exact hKey
  · intro hKey
    exact ⟨record, hRecord, keys, hKeys, hKey, hSame⟩

namespace Store

variable {table : Table} {store : Store} {slot : Slot} {bookmark : Bookmark} {entry : Entry}

theorem name_ne_of_mem_secondary (hNames : store.indexNames.Nodup)
    (hSlot : slot ∈ store.secondary) : slot.index.name ≠ store.clusteringName := by
  intro hSame
  apply (List.nodup_cons.mp hNames).1
  rw [← hSame]
  exact List.mem_map_of_mem hSlot

/-- Every entry is one of a stored record. -/
theorem Invariant.exists_owner (hStore : Invariant table store)
    (hSlot : slot ∈ store.clustering :: store.secondary)
    (hEntry : entry ∈ slot.index.entries.toList) :
    ∃ record ∈ store.records.toList, entry.bookmark = record.bookmark := by
  rcases List.mem_cons.mp hSlot with rfl | hSecondary
  · obtain ⟨record, hRecord, rfl⟩ := (hStore.clustered entry).mp hEntry
    exact ⟨record, hRecord, rfl⟩
  · obtain ⟨record, hRecord, -, -, -, hSame⟩ :=
      ((hStore.secondary slot hSecondary).mem_iff entry).mp hEntry
    exact ⟨record, hRecord, hSame⟩

/-- The entries computed for a record are those that the index holds for it. -/
theorem entriesFor_eq_ok (hNames : store.indexNames.Nodup) (hStore : Invariant table store)
    (hSlot : slot ∈ store.clustering :: store.secondary) (bookmark : Bookmark) :
    store.entriesFor slot bookmark =
      .ok (slot.index.entries.toList.filter fun entry => decide (entry.bookmark = bookmark)) := by
  unfold entriesFor
  cases hGet : store.get? bookmark with
  | none =>
      have hFree := contains_eq_false_iff.mp (by rw [contains, hGet]; rfl)
      refine congrArg Except.ok (List.filter_eq_nil_iff.mpr fun entry hEntry hOwn => ?_).symm
      obtain ⟨record, hRecord, hSame⟩ := hStore.exists_owner hSlot hEntry
      exact hFree record hRecord (hSame.symm.trans (of_decide_eq_true hOwn))
  | some row =>
      -- Both lists ascend, so that it is enough to compare their members.
      have hAscending := slot.index.entries.ascending.filter fun entry =>
        decide (entry.bookmark = bookmark)
      have hRecord := get?_eq_some_iff.mp hGet
      dsimp only
      rcases List.mem_cons.mp hSlot with rfl | hSecondary
      · rw [if_pos (show store.clustering.index.name = store.clusteringName from rfl)]
        apply congrArg Except.ok
        apply OrderedSet.eq_of_ascending (List.pairwise_singleton _ _) hAscending
        intro entry
        rw [List.mem_singleton, List.mem_filter, hStore.clustered, decide_eq_true_iff]
        constructor
        · rintro rfl
          exact ⟨⟨_, hRecord, rfl⟩, rfl⟩
        · rintro ⟨⟨record, -, rfl⟩, rfl⟩
          rfl
      · have hFollows := hStore.secondary slot hSecondary
        obtain ⟨keys, hKeys⟩ := hFollows.keyed _ hRecord
        have hKeys' : slot.keysFor row = .ok keys := hKeys
        rw [if_neg (name_ne_of_mem_secondary hNames hSecondary), hKeys']
        apply congrArg Except.ok
        apply OrderedSet.eq_of_ascending _ hAscending
        · intro entry
          rw [List.mem_map, List.mem_filter, decide_eq_true_iff]
          constructor
          · rintro ⟨key, hKey, rfl⟩
            exact ⟨(hFollows.mem_iff_of_bookmark hRecord hKeys rfl).mpr hKey, rfl⟩
          · rintro ⟨hEntry, rfl⟩
            exact ⟨entry.key, (hFollows.mem_iff_of_bookmark hRecord hKeys rfl).mp hEntry, rfl⟩
        · refine List.pairwise_map.mpr (keys.ascending.imp fun hLess => ?_)
          rw [Entry.order, hLess]
          rfl

end Store

theorem SeekMode.reversed_ite (reversed : Bool) :
    (if reversed then atOrBefore else atOrAfter).reversed = reversed := by
  cases reversed <;> rfl

namespace Cursor

variable {cursor : Cursor} {interval : KeyInterval} {reversed : Bool} {bookmark : Bookmark}
  {table : Table}

/-- The first entry of a record that a scan of the interval meets. -/
def firstOf (cursor : Cursor) (bookmark : Bookmark) (interval : KeyInterval) (reversed : Bool) :
    Option Entry :=
  (ValueRange.hits cursor.index interval reversed).find? fun entry =>
    decide (entry.bookmark = bookmark)

theorem isSome_firstOf : (cursor.firstOf bookmark interval reversed).isSome =
    decide (bookmark ∈ (ValueRange.hits cursor.index interval reversed).map (·.bookmark)) := by
  rw [Bool.eq_iff_iff, decide_eq_true_iff, firstOf, List.find?_isSome, List.mem_map]
  simp only [decide_eq_true_eq]

theorem firstOf_eq_some_iff {entry : Entry} :
    cursor.firstOf bookmark interval reversed = some entry ↔ entry.bookmark = bookmark ∧
      ∃ before after, ValueRange.hits cursor.index interval reversed = before ++ entry :: after ∧
        ∀ other ∈ before, other.bookmark ≠ bookmark := by
  rw [firstOf, List.find?_eq_some_iff_append]
  simp only [decide_eq_true_eq, Bool.not_eq_true', decide_eq_false_iff_not, ne_eq]

theorem gotoComputed_eq (hNames : cursor.store.indexNames.Nodup)
    (hStore : Store.Invariant table cursor.store)
    (hSlot : cursor.slot ∈ cursor.store.clustering :: cursor.store.secondary) :
    cursor.gotoComputed bookmark interval (if reversed then .atOrBefore else .atOrAfter) =
      (.ok (cursor.firstOf bookmark interval reversed).isSome,
        cursor.land (cursor.firstOf bookmark interval reversed)) := by
  have hFirst : cursor.firstOf bookmark interval reversed =
      (cursor.index.path reversed).find? fun entry =>
        decide (interval.contains entry.key = true ∧ decide (entry.bookmark = bookmark) = true) :=
    List.find?_filter
  have hTest : (fun entry : Entry => interval.contains entry.key &&
      decide (entry.bookmark = bookmark)) = fun entry =>
        decide (interval.contains entry.key = true ∧
          decide (entry.bookmark = bookmark) = true) := by
    funext entry
    simp
  rw [gotoComputed, entriesOf, Store.entriesFor_eq_ok hNames hStore hSlot]
  dsimp only
  rw [List.filter_filter, hTest, hFirst]
  cases reversed with
  | false =>
      rw [if_neg (by decide)]
      dsimp only
      rw [List.head?_filter]
      rfl
  | true =>
      rw [if_pos rfl]
      dsimp only
      rw [OrderedIndex.getLast?_filter_eq_find?]
      rfl

theorem passed_eq {key : Key} :
    passed interval key (if reversed then .atOrBefore else .atOrAfter) =
      !interval.far reversed key := by
  have hLess (a b : Key) : a < b ↔ ¬ b ≤ a := by
    rw [Key.lt_iff_gt, Key.le_iff_not_gt, not_not]
  cases reversed with
  | false => cases hStop : interval.stop <;> simp [passed, KeyInterval.far, hStop, hLess]
  | true => cases hStart : interval.start <;> simp [passed, KeyInterval.far, hStart, hLess]

/-- A walk without bounds stops at the first entry of the record before the far end. -/
theorem walks_of_reads {entries : List Entry} (hUpper : cursor.upper = none)
    (hLower : cursor.lower = none) (hReads : cursor.Reads reversed entries) {found : Option Entry}
    (hFound : (entries.takeWhile fun entry => interval.far reversed entry.key).find? (fun entry =>
      decide (entry.bookmark = bookmark)) = found) :
    ∃ after, Walks bookmark interval (if reversed then .atOrBefore else .atOrAfter) cursor.placed
        (.ok found.isSome, after) ∧
      ∀ entry, found = some entry → after = cursor.land (some entry) := by
  rw [hReads.placed]
  induction entries generalizing cursor with
  | nil =>
      obtain rfl : none = found := hFound
      exact ⟨cursor, .lost, by simp⟩
  | cons entry rest ih =>
      have hPassed := @passed_eq interval reversed entry.key
      rw [List.takeWhile_cons] at hFound
      cases hFar : interval.far reversed entry.key with
      | false =>
          obtain rfl : none = found := by simpa [hFar] using hFound
          rw [hFar] at hPassed
          exact ⟨cursor, .left hReads.key_eq hPassed, by simp⟩
      | true =>
          rw [hFar] at hPassed
          rw [hFar, if_pos rfl] at hFound
          by_cases hOwn : entry.bookmark = bookmark
          · rw [List.find?_cons_of_pos (by simpa using hOwn)] at hFound
            subst found
            refine ⟨cursor, .met hReads.key_eq hPassed (hOwn ▸ hReads.bookmark_eq), ?_⟩
            intro other hOther
            obtain rfl := Option.some.inj hOther
            obtain ⟨store, slot, current, upper, lower, search⟩ := cursor
            cases hUpper
            cases hLower
            cases hReads.1
            rfl
          · rw [List.find?_cons_of_neg (by simpa using hOwn)] at hFound
            have hStep : (cursor.step reversed).upper = none ∧
                (cursor.step reversed).lower = none := by
              rw [step_eq]
              exact ⟨hUpper, hLower⟩
            obtain ⟨after, hWalk, hAfter⟩ := ih hStep.1 hStep.2 hReads.step hFound
            refine ⟨after, .moved hReads.key_eq hPassed hReads.bookmark_eq hOwn ?_, ?_⟩
            · rw [SeekMode.reversed_ite, hReads.step.placed]
              exact hWalk
            · intro other hOther
              rw [hAfter other hOther, step_eq]
              rfl

theorem reads_land {done tail : List Entry} {entry : Entry}
    (hPath : cursor.index.path reversed = done ++ entry :: tail) :
    (cursor.land (some entry)).Reads reversed (entry :: tail) := by
  refine ⟨rfl, done, tail, hPath, ?_⟩
  exact (List.takeWhile_eq_self_iff.mpr fun _ _ => rfl).symm

theorem gotoWalked_spec : ∃ after,
    cursor.gotoWalked bookmark interval (if reversed then .atOrBefore else .atOrAfter) =
        (.ok (cursor.firstOf bookmark interval reversed).isSome, after) ∧
      ∀ entry, cursor.firstOf bookmark interval reversed = some entry →
        after = cursor.land (some entry) := by
  obtain ⟨entries, hReads, hHits⟩ : ∃ entries,
      (cursor.enter interval (if reversed then .atOrBefore else .atOrAfter)).Reads reversed
          entries ∧
        (entries.takeWhile fun entry => interval.far reversed entry.key) =
          ValueRange.hits cursor.index interval reversed := by
    rw [enter_eq_land]
    cases hFind : (cursor.index.path reversed).find? fun entry =>
        interval.near reversed entry.key with
    | none =>
        rw [ValueRange.hits_eq_nil hFind]
        exact ⟨[], rfl, rfl⟩
    | some entry =>
        obtain ⟨hNear, done, tail, hPath, hDone⟩ := List.find?_eq_some_iff_append.mp hFind
        refine ⟨entry :: tail, reads_land hPath, ?_⟩
        rw [ValueRange.hits_eq_takeWhile hPath hNear fun other hOther => by
          simpa using hDone other hOther]
  have hEnter : ∃ entry, cursor.enter interval (if reversed then .atOrBefore else .atOrAfter) =
      cursor.land entry := ⟨_, enter_eq_land⟩
  obtain ⟨place, hPlace⟩ := hEnter
  rw [hPlace] at hReads
  obtain ⟨after, hWalk, hAfter⟩ := @walks_of_reads _ interval reversed bookmark _
    (show (cursor.land place).upper = none from rfl) rfl hReads _ (congrArg _ hHits)
  refine ⟨after, ?_, hAfter⟩
  rw [gotoWalked, hPlace]
  exact hWalk.walkTo_eq

/-- However the cursor searches, it goes to the first entry of the record in the interval, if there
is one. -/
theorem gotoBookmarkWithin_spec (hNames : cursor.store.indexNames.Nodup)
    (hStore : Store.Invariant table cursor.store)
    (hSlot : cursor.slot ∈ cursor.store.clustering :: cursor.store.secondary) : ∃ after,
    cursor.gotoBookmarkWithin bookmark interval (if reversed then .atOrBefore else .atOrAfter) =
        (.ok (cursor.firstOf bookmark interval reversed).isSome, after) ∧
      ∀ entry, cursor.firstOf bookmark interval reversed = some entry →
        after = cursor.land (some entry) := by
  unfold gotoBookmarkWithin
  cases cursor.search with
  | byValues => exact ⟨_, gotoComputed_eq hNames hStore hSlot, fun entry hEntry => by rw [hEntry]⟩
  | byWalk => exact gotoWalked_spec

end Cursor

end IndexedTable

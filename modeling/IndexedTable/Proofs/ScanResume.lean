import IndexedTable.Proofs.RecordEntries
import IndexedTable.Proofs.ScanRange

/-! Resuming a scan from a record. The cursor goes to the record's first entry in the interval, and
from there the scan meets exactly what a scan from the start meets after that entry. A scan that
returns each record once has forgotten the records it returned before it was left, so that it may
return some of them again, but it skips none. -/

namespace List

variable {α : Type} [DecidableEq α]

theorem nodup_eraseDups : ∀ xs : List α, xs.eraseDups.Nodup
  | [] => by simp
  | x :: xs => by
      rw [eraseDups_cons, nodup_cons, mem_eraseDups]
      exact ⟨by simp, nodup_eraseDups (xs.filter fun y => !y == x)⟩
termination_by xs => xs.length
decreasing_by exact Nat.lt_succ_of_le (length_filter_le _ _)

theorem eraseDups_of_nodup {xs : List α} (hNodup : xs.Nodup) : xs.eraseDups = xs := by
  induction xs with
  | nil => rfl
  | cons x xs ih =>
      obtain ⟨hNew, hRest⟩ := nodup_cons.mp hNodup
      have hOthers : xs.filter (fun y => !y == x) = xs := by
        refine filter_eq_self.mpr fun y hy => ?_
        rw [Bool.not_eq_true', beq_eq_false_iff_ne]
        rintro rfl
        exact hNew hy
      rw [eraseDups_cons, hOthers, ih hRest]

theorem filter_eraseDups (p : α → Bool) : ∀ xs : List α,
    xs.eraseDups.filter p = (xs.filter p).eraseDups
  | [] => by simp
  | x :: xs => by
      have ih := filter_eraseDups p (xs.filter fun y => !y == x)
      rw [eraseDups_cons, filter_cons, filter_cons, ih, filter_filter]
      cases hKeep : p x with
      | true =>
          rw [if_pos rfl, if_pos rfl, eraseDups_cons, filter_filter]
          simp only [Bool.and_comm]
      | false =>
          rw [if_neg (by decide), if_neg (by decide)]
          refine congrArg eraseDups (filter_congr fun y _ => ?_)
          by_cases hSame : y = x
          · simp [hSame, hKeep]
          · simp [hSame]
termination_by xs => xs.length
decreasing_by exact Nat.lt_succ_of_le (length_filter_le _ _)

/-- What a list goes on with after its first occurrence of an element, without what came before. -/
theorem filter_eraseDups_of_append {pre post before after : List α} {x : α} (hNew : x ∉ pre)
    (hSplit : (pre ++ x :: post).eraseDups = before ++ x :: after) :
    ((x :: post).eraseDups.filter fun y => decide (y ∉ before)) = x :: after := by
  have hNodup := hSplit ▸ nodup_eraseDups (pre ++ x :: post)
  obtain ⟨-, hTail, hApart⟩ := nodup_append.mp hNodup
  have hRest : (x :: post).removeAll pre = x :: post.removeAll pre := by
    simp [removeAll, hNew]
  rw [eraseDups_append, hRest, eraseDups_cons] at hSplit
  have hBefore : x ∉ before := fun hx => hApart x hx x mem_cons_self rfl
  obtain ⟨rfl, -, rfl⟩ :=
    (append_cons_inj_of_notMem hBefore (nodup_cons.mp hTail).1).mp hSplit.symm
  have hMem : (fun y => decide (y ∉ pre.eraseDups)) = fun y => !pre.elem y := by
    funext y
    rw [Bool.eq_iff_iff]
    simp
  rw [hMem, filter_eraseDups, ← eraseDups_cons, ← hRest]
  rfl

end List

namespace IndexedTable

namespace ValueRange

variable {range : ValueRange} {cursor prepared : Cursor} {interval : KeyInterval}
  {index : OrderedIndex} {reversed : Bool} {entry : Entry} {before after : List Entry}
  {table : Table}

/-- From any of its entries on, the far end decides what belongs to an interval. -/
theorem hits_eq_append (hHits : hits index interval reversed = before ++ entry :: after) :
    ∃ done tail, index.path reversed = done ++ entry :: tail ∧
      after = tail.takeWhile fun other => interval.far reversed other.key := by
  obtain ⟨front, back, hPath, -, hBack⟩ := List.filter_eq_append_iff.mp hHits
  obtain ⟨skipped, tail, rfl, -, hEntry, hAfter⟩ := List.filter_eq_cons_iff.mp hBack
  have hSplit : index.path reversed = (front ++ skipped) ++ entry :: tail := by
    rw [hPath, List.append_assoc]
  have hPairs := hSplit ▸ @OrderedIndex.path_pairwise index reversed
  obtain ⟨hNext, hTail⟩ := List.pairwise_cons.mp (List.pairwise_append.mp hPairs).2.1
  rw [@KeyInterval.contains_eq interval reversed, Bool.and_eq_true] at hEntry
  refine ⟨front ++ skipped, tail, hSplit, ?_⟩
  rw [takeWhile_eq_filter (hTail.imp KeyInterval.far_of_precedes), ← hAfter]
  refine List.filter_congr fun other hOther => ?_
  have hNear := KeyInterval.near_of_precedes (hNext other hOther) hEntry.1
  simp [@KeyInterval.contains_eq interval reversed, hNear]

/-- After a filter is applied from a record, the cursor reads the entries of its interval from the
first one of the record on. -/
theorem applyFromBookmark_reads (hPrepare : range.prepare cursor = (.ok interval, prepared))
    (hNames : prepared.store.indexNames.Nodup) (hStore : Store.Invariant table prepared.store)
    (hSlot : prepared.slot ∈ prepared.store.clustering :: prepared.store.secondary)
    (bookmark : Bookmark) :
    ∃ landed, range.applyFromBookmark cursor bookmark =
        (.ok (prepared.firstOf bookmark interval range.reversed).isSome, landed) ∧
      ∀ before entry after,
        hits prepared.index interval range.reversed = before ++ entry :: after →
          prepared.firstOf bookmark interval range.reversed = some entry →
            landed.store = prepared.store ∧ landed.Reads range.reversed (entry :: after) := by
  obtain ⟨found, hFound, hLand⟩ := @Cursor.gotoBookmarkWithin_spec prepared interval
    range.reversed bookmark table hNames hStore hSlot
  unfold applyFromBookmark
  rw [hPrepare]
  simp only [mode_eq, hFound]
  cases hFirst : prepared.firstOf bookmark interval range.reversed with
  | none => exact ⟨found, rfl, fun _ _ _ _ hSome => by cases hSome⟩
  | some entry =>
      obtain rfl := hLand entry hFirst
      obtain ⟨landed, hBound, hLandedStore, hLandedSlot, hCurrent, hWithin⟩ :=
        @boundFarEnd_land prepared interval range.reversed entry
      have hHit : entry ∈ hits prepared.index interval range.reversed :=
        List.mem_of_find?_eq_some hFirst
      have hFar : interval.far range.reversed entry.key = true := by
        have hContains := (List.mem_filter.mp hHit).2
        rw [@KeyInterval.contains_eq interval range.reversed, Bool.and_eq_true] at hContains
        exact hContains.2
      rw [hFar] at hBound hCurrent
      refine ⟨landed, hBound, ?_⟩
      rintro before other after hHits hSame
      obtain rfl := Option.some.inj hSame
      obtain ⟨done, tail, hPath, rfl⟩ := hits_eq_append hHits
      refine ⟨hLandedStore, hCurrent, done, tail, ?_, ?_⟩
      · rw [Cursor.index, hLandedSlot]
        exact hPath
      · exact congrArg (fun test => tail.takeWhile test) (funext hWithin).symm

end ValueRange

namespace Filter

variable {filter : Filter} {cursor : Cursor} {slot : Slot} {interval : KeyInterval}
  {bookmark : Bookmark} {table : Table}

theorem nodup_map_path {reversed : Bool}
    (hNodup : (slot.index.entries.toList.map (·.bookmark)).Nodup) :
    ((slot.index.path reversed).map (·.bookmark)).Nodup := by
  cases reversed with
  | false => exact hNodup
  | true =>
      show (slot.index.entries.toList.reverse.map (·.bookmark)).Nodup
      rw [List.map_reverse]
      exact List.nodup_reverse.mpr hNodup

/-- Where each record counts once, or has one entry only, each is returned at its first place. -/
theorem returned_eq_eraseDups {entries : List Entry} {reversed : Bool}
    (hOnce : filter.distinct = true ∨ (slot.index.entries.toList.map (·.bookmark)).Nodup)
    (hPart : entries.Sublist (slot.index.path reversed)) :
    filter.returned entries = (entries.map (·.bookmark)).eraseDups := by
  unfold returned
  rcases hOnce with hDistinct | hNodup
  · rw [if_pos hDistinct]
  · split
    · rfl
    · have hOwn := (nodup_map_path hNodup).sublist (hPart.map (·.bookmark))
      exact (List.eraseDups_of_nodup hOwn).symm

section Prepared

variable (hNames : cursor.store.indexNames.Nodup) (hStore : Store.Invariant table cursor.store)
  (hCursor : cursor.slot ∈ cursor.store.clustering :: cursor.store.secondary)
  (hSlot : cursor.store.slot filter.strategy.valueRange.index = .ok slot)
  (hInterval : filter.strategy.valueRange.intervalFor slot.index.layout = .ok interval)

include hNames hStore hCursor hSlot hInterval

theorem applyFromBookmark_reads (bookmark : Bookmark) :
    let hits := ValueRange.hits slot.index interval filter.strategy.reversed
    ∃ landed, filter.applyFromBookmark cursor bookmark =
        (.ok (decide (bookmark ∈ hits.map (·.bookmark))), landed) ∧
      ∀ before entry after, hits = before ++ entry :: after → entry.bookmark = bookmark →
        (∀ other ∈ before, other.bookmark ≠ bookmark) →
          landed.store = cursor.store ∧
            landed.Reads filter.strategy.reversed (entry :: after) := by
  obtain ⟨prepared, hPrepare, hPreparedStore, rfl⟩ :=
    ValueRange.prepare_eq_ok hNames hCursor hSlot hInterval
  rw [← hPreparedStore] at hNames hStore hSlot
  obtain ⟨landed, hApply, hLanded⟩ :=
    ValueRange.applyFromBookmark_reads hPrepare hNames hStore (Store.slot_mem hSlot) bookmark
  rw [ScanStrategy.reversed_valueRange] at hApply hLanded
  rw [Cursor.isSome_firstOf] at hApply
  refine ⟨landed, hApply, fun before entry after hHits hOwn hBefore => ?_⟩
  rw [← hPreparedStore]
  apply hLanded before entry after hHits
  exact Cursor.firstOf_eq_some_iff.mpr ⟨hOwn, before, after, hHits, hBefore⟩

/-- A scan from a record visits the entries of its interval from the record's first one on. -/
theorem visits_scanFrom {before after : List Entry} {entry : Entry}
    (hHits : ValueRange.hits slot.index interval filter.strategy.reversed =
      before ++ entry :: after)
    (hBefore : ∀ other ∈ before, other.bookmark ≠ entry.bookmark) :
    (filter.scanFrom cursor entry.bookmark).Visits (entry :: after) := by
  obtain ⟨landed, hApply, hLanded⟩ :=
    applyFromBookmark_reads hNames hStore hCursor hSlot hInterval entry.bookmark
  obtain ⟨hLandedStore, hReads⟩ := hLanded before entry after hHits rfl hBefore
  have hFound : decide (entry.bookmark ∈ (ValueRange.hits slot.index interval
      filter.strategy.reversed).map (·.bookmark)) = true := by
    simp [hHits]
  rw [hFound] at hApply
  have hLength := @ValueRange.length_hits_le _ _ interval filter.strategy.reversed
    (Store.slot_mem hSlot)
  rw [hHits, List.length_append] at hLength
  apply Scan.visits_of_meets rfl
  · exact ⟨landed, hApply, hLandedStore, hReads⟩
  · exact Nat.le_of_add_left_le hLength

/-- A scan from a record without an entry in its interval is over at once. -/
theorem items_scanFrom_of_not_mem
    (hAbsent : bookmark ∉ (ValueRange.hits slot.index interval filter.strategy.reversed).map
      (·.bookmark)) :
    (filter.scanFrom cursor bookmark).toEnd.items = [] := by
  obtain ⟨landed, hApply, -⟩ :=
    applyFromBookmark_reads hNames hStore hCursor hSlot hInterval bookmark
  rw [decide_eq_false hAbsent] at hApply
  have hAdvance : (filter.scanFrom cursor bookmark).advance = (.ok false, landed) := hApply
  have hNext : (filter.scanFrom cursor bookmark).next =
      (none, (filter.scanFrom cursor bookmark).finish landed) :=
    (Scan.Answers.ended hAdvance).next_eq
  rw [Scan.toEnd, Scan.take, hNext]

/-- A scan from a record that a scan from the start returns begins with it, and goes on with what is
returned after it and with records from before it. -/
theorem items_scanFrom_of_split {before after : List Bookmark}
    (hOnce : filter.distinct = true ∨ (slot.index.entries.toList.map (·.bookmark)).Nodup)
    (hSplit : ((ValueRange.hits slot.index interval filter.strategy.reversed).map
      (·.bookmark)).eraseDups = before ++ bookmark :: after) :
    ∃ rest, (filter.scanFrom cursor bookmark).toEnd.items = (bookmark :: rest).map .ok ∧
      (filter.scanFrom cursor bookmark).toEnd.ended = true ∧
      (bookmark :: rest).filter (fun other => decide (other ∉ before)) = bookmark :: after ∧
      ((slot.index.entries.toList.map (·.bookmark)).Nodup → rest = after) := by
  have hPart : (ValueRange.hits slot.index interval filter.strategy.reversed).Sublist
      (slot.index.path filter.strategy.reversed) := List.filter_sublist
  have hMem : bookmark ∈ (ValueRange.hits slot.index interval filter.strategy.reversed).map
      (·.bookmark) := by
    rw [← List.mem_eraseDups, hSplit]
    simp
  obtain ⟨_, _, hAll, hNew⟩ := List.eq_append_cons_of_mem hMem
  obtain ⟨front, tail, hHits, rfl, hTail⟩ := List.map_eq_append_iff.mp hAll
  obtain ⟨entry, back, rfl, rfl, rfl⟩ := List.map_eq_cons_iff.mp hTail
  have hFront : ∀ other ∈ front, other.bookmark ≠ entry.bookmark :=
    fun other hOther hSame => hNew (hSame ▸ List.mem_map_of_mem hOther)
  have hVisits := visits_scanFrom hNames hStore hCursor hSlot hInterval hHits hFront
  have hReturned := returned_eq_eraseDups hOnce
    ((List.sublist_append_right front (entry :: back)).trans (hHits ▸ hPart))
  rw [List.map_cons, List.eraseDups_cons] at hReturned
  rw [hAll] at hSplit
  refine ⟨_, hVisits.items.trans (congrArg _ hReturned), hVisits.ended, ?_, fun hNodup => ?_⟩
  · rw [← List.eraseDups_cons]
    exact List.filter_eraseDups_of_append hNew hSplit
  · have hOwn := (nodup_map_path hNodup).sublist (hPart.map (·.bookmark))
    rw [hAll] at hOwn
    obtain ⟨-, hBack, -⟩ := List.nodup_append.mp hOwn
    rw [List.eraseDups_of_nodup hOwn,
      List.append_cons_inj_of_notMem hNew (List.nodup_cons.mp hBack).1] at hSplit
    have hKept := List.eraseDups_of_nodup hBack
    rw [List.eraseDups_cons] at hKept
    exact (List.cons.inj hKept).2.trans hSplit.2.2

end Prepared

end Filter

namespace Store

variable {table : Table} {store : Store} {slot : Slot} {filter : Filter} {interval : KeyInterval}
  {name : String} {steps : List Declaration}

/-- A scan from a record loses nothing. The record is found exactly if a scan from the start returns
it; then the scan from the record begins with it and goes on with what the scan from the start
returns after it, and with nothing else but records from before it, which have an entry behind. -/
theorem scanFrom_resumes (hDeclare : Table.declare name steps = .ok table)
    (hReachable : Reachable table store) (hSlot : store.slot filter.strategy.index = .ok slot)
    (hInterval : filter.strategy.valueRange.intervalFor slot.index.layout = .ok interval)
    (hOnce : filter.distinct = true ∨ (slot.index.entries.toList.map (·.bookmark)).Nodup) :
    ∃ scanned : List Bookmark,
      (∀ cursor : Cursor, cursor.On store →
        (filter.scan cursor).toEnd.items = scanned.map .ok ∧
          (filter.scan cursor).toEnd.ended = true) ∧
      ∀ (cursor : Cursor) (bookmark : Bookmark), cursor.On store →
        (filter.applyFromBookmark cursor bookmark).1 = .ok (decide (bookmark ∈ scanned)) ∧
          (bookmark ∉ scanned → (filter.scanFrom cursor bookmark).toEnd.items = []) ∧
          ∀ before after, scanned = before ++ bookmark :: after →
            ∃ rest, (filter.scanFrom cursor bookmark).toEnd.items = (bookmark :: rest).map .ok ∧
              (filter.scanFrom cursor bookmark).toEnd.ended = true ∧
              (bookmark :: rest).filter (fun other => decide (other ∉ before)) =
                bookmark :: after ∧
              ((slot.index.entries.toList.map (·.bookmark)).Nodup → rest = after) := by
  have hTable := Table.wellFormed_of_declare hDeclare
  have hInvariant := hReachable.invariant
  have hNames := indexNames_nodup hTable hInvariant
  have hPart : (ValueRange.hits slot.index interval filter.strategy.reversed).Sublist
      (slot.index.path filter.strategy.reversed) := List.filter_sublist
  refine ⟨((ValueRange.hits slot.index interval filter.strategy.reversed).map
    (·.bookmark)).eraseDups, ?_, ?_⟩
  · intro cursor hCursor
    have hVisits := hReachable.visits_scan hTable hCursor hSlot hInterval
    refine ⟨?_, hVisits.ended⟩
    rw [← Filter.returned_eq_eraseDups hOnce hPart]
    exact hVisits.items
  · rintro cursor bookmark ⟨rfl, hOn⟩
    rw [← ScanStrategy.index_valueRange] at hSlot
    obtain ⟨landed, hApply, -⟩ :=
      Filter.applyFromBookmark_reads hNames hInvariant hOn hSlot hInterval bookmark
    refine ⟨?_, ?_, ?_⟩
    · rw [hApply]
      simp only [List.mem_eraseDups]
    · rw [List.mem_eraseDups]
      exact Filter.items_scanFrom_of_not_mem hNames hInvariant hOn hSlot hInterval
    · intro before after hSplit
      exact Filter.items_scanFrom_of_split hNames hInvariant hOn hSlot hInterval hOnce hSplit

/-- A scan resumed at its second record, over an index where the first one has an entry behind. -/
theorem scanFrom_resumes_of_repeated :
    let table : Table :=
      { name := "notes"
        columns := [⟨"id", .int32, false, false, 0⟩, ⟨"tags", .text, false, true, 1⟩]
        indices := [⟨"pkNotes", "notes", [⟨"id", .ascending⟩], true, .standard, 1⟩,
          ⟨"byTag", "notes", [⟨"tags", .descending⟩], false, .standard, 1⟩] }
    let filter : Filter := ⟨.range "byTag" 1 none (some [.text "b"]) false, true⟩
    let operations : List StoreOperation :=
      [.insert [.int32 7, .list [.text "b", .text "c"]], .insert [.int32 8, .list [.text "c"]],
        .insert [.int32 9, .list [.text "a", .text "b"]]]
    let bookmark : UInt8 → Bookmark := fun id => ⟨[2, 128, 0, 0, id]⟩
    ∃ first, create table = .ok first ∧
      let store := operations.foldl apply first
      (filter.scan (store.cursor .byValues)).toEnd.items =
          [bookmark 7, bookmark 8, bookmark 9].map .ok ∧
        (filter.applyFromBookmark (store.cursor .byWalk) (bookmark 8)).1 = .ok true ∧
        ∃ rest, (filter.scanFrom (store.cursor .byWalk) (bookmark 8)).toEnd.items =
            (bookmark 8 :: rest).map .ok ∧
          rest = [bookmark 7, bookmark 9] ∧
          (bookmark 8 :: rest).filter (fun other => decide (other ∉ [bookmark 7])) =
            [bookmark 8, bookmark 9] := by
  intro table filter operations bookmark
  have hDeclare : Table.declare "notes" [.column "id" .int32, .multiValued "tags" .text,
      .primaryKey ["id"], .orderedIndex "byTag" [⟨"tags", .descending⟩]] = .ok table := rfl
  obtain ⟨first, hCreate, hFound, hScan, hRest⟩ : ∃ first, create table = .ok first ∧
      ((operations.foldl apply first).slot (some "byTag")).map (·.index.layout) =
        .ok [⟨.text, .descending⟩] ∧
      (filter.scan ((operations.foldl apply first).cursor .byValues)).toEnd.items =
        [bookmark 7, bookmark 8, bookmark 9].map .ok ∧
      (filter.scanFrom ((operations.foldl apply first).cursor .byWalk) (bookmark 8)).toEnd.items =
        [bookmark 8, bookmark 7, bookmark 9].map .ok :=
    ⟨_, rfl, by decide +kernel, by decide +kernel, by decide +kernel⟩
  have hReachable := (Reachable.created hCreate).foldl operations
  obtain ⟨slot, hSlot, hLayout⟩ := Except.map_eq_ok_iff.mp hFound
  have hSelected : (operations.foldl apply first).slot filter.strategy.index = .ok slot := hSlot
  obtain ⟨interval, hInterval⟩ : ∃ interval,
      filter.strategy.valueRange.intervalFor slot.index.layout = .ok interval := by
    rw [hLayout]
    exact ⟨_, rfl⟩
  have hOk : Function.Injective (Except.ok : Bookmark → Except IndexError Bookmark) :=
    fun _ _ => Except.ok.inj
  obtain ⟨scanned, hScanned, hResumes⟩ :=
    scanFrom_resumes hDeclare hReachable hSelected hInterval (.inl rfl)
  obtain rfl : scanned = [bookmark 7, bookmark 8, bookmark 9] :=
    List.map_injective_iff.mpr hOk ((hScanned _ (cursor_on _ .byValues)).1.symm.trans hScan)
  obtain ⟨hApplied, -, hTail⟩ := hResumes _ (bookmark 8) (cursor_on _ .byWalk)
  obtain ⟨rest, hItems, -, hAfter, -⟩ := hTail [bookmark 7] [bookmark 9] rfl
  refine ⟨first, hCreate, hScan, hApplied, rest, hItems, ?_, hAfter⟩
  exact List.tail_eq_of_cons_eq (List.map_injective_iff.mpr hOk (hItems.symm.trans hRest))

end Store

end IndexedTable

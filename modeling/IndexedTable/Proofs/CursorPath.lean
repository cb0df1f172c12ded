import IndexedTable.Filter.Apply
import IndexedTable.Proofs.IndexEntries
import IndexedTable.Proofs.KeyLimits

/-! The way of a cursor through the entries of an index. A cursor in scan direction is read as the
list of the entries it still meets, its own first. A step takes the first one off the list; entering
an interval and bounding its far end gives the list of the entries in the interval. -/

namespace IndexedTable

namespace OrderedIndex

variable {index : OrderedIndex} {entry : Entry} {reversed : Bool}

theorem length_path : (index.path reversed).length = index.size := by
  unfold path
  split
  · exact List.length_reverse
  · rfl

theorem path_pairwise : (index.path reversed).Pairwise fun a b => a.precedes reversed b = true := by
  cases reversed with
  | false => exact index.entries.ascending.imp fun h => by simp [Entry.precedes, h]
  | true =>
      refine List.pairwise_reverse.mpr (index.entries.ascending.imp fun h => ?_)
      simp [Entry.precedes, h]

theorem neighbour?_eq_head? {done tail : List Entry}
    (hPath : index.path reversed = done ++ entry :: tail) :
    index.neighbour? reversed entry = tail.head? := by
  have hPairs := hPath ▸ @path_pairwise index reversed
  obtain ⟨-, hTail, hDone⟩ := List.pairwise_append.mp hPairs
  have hDoneOff : (done.find? (entry.precedes reversed)) = none := by
    refine List.find?_eq_none.mpr fun other hOther => ?_
    simp [Entry.not_precedes_of_precedes (hDone other hOther entry List.mem_cons_self)]
  rw [neighbour?_eq_find?, hPath, List.find?_append, hDoneOff, Option.none_or,
    List.find?_cons_of_neg (by simp [Entry.not_precedes_self])]
  cases tail with
  | nil => rfl
  | cons next tail =>
      exact List.find?_cons_of_pos ((List.pairwise_cons.mp hTail).1 next List.mem_cons_self)

end OrderedIndex

/-- No key lies between a key and its extension by a zero byte. -/
theorem compare_append_zero (xs ys : List UInt8) :
    compare xs (ys ++ [0]) = .lt ↔ compare xs ys ≠ .gt := by
  induction ys generalizing xs with
  | nil =>
      cases xs with
      | nil => decide
      | cons x xs =>
          have hHead : compare x 0 ≠ .lt := by
            rw [compare_toNat]
            exact fun h => Nat.not_lt_zero _ (Nat.compare_eq_lt.mp h)
          have hTail := KeyLayout.compare_bytes_nil xs
          rw [List.nil_append, List.compare_cons_cons, List.compare_cons_nil]
          cases hOrder : compare x 0 <;> simp_all
  | cons y ys ih =>
      cases xs with
      | nil => simp
      | cons x xs =>
          rw [List.cons_append, List.compare_cons_cons, List.compare_cons_cons]
          cases compare x y with
          | lt | gt => simp
          | eq => simpa using ih xs

namespace KeyInterval

variable {interval : KeyInterval} {reversed : Bool} {key : Key}

/-- Whether the end of the interval where a scan enters it admits a key. -/
def near (interval : KeyInterval) (reversed : Bool) (key : Key) : Bool :=
  if reversed then interval.stop.all fun stop => decide (key ≤ stop)
  else interval.start.all fun start => decide (start ≤ key)

/-- Whether the end of the interval where a scan leaves it admits a key. -/
def far (interval : KeyInterval) (reversed : Bool) (key : Key) : Bool :=
  if reversed then interval.start.all fun start => decide (start ≤ key)
  else interval.stop.all fun stop => decide (key ≤ stop)

theorem contains_eq :
    interval.contains key = (interval.near reversed key && interval.far reversed key) := by
  unfold contains near far
  cases reversed with
  | false => rfl
  | true => exact Bool.and_comm _ _

end KeyInterval

theorem Entry.key_le_of_order {a b : Entry} (h : order a b = .lt) : a.key ≤ b.key := by
  rw [order, Ordering.then_eq_lt] at h
  rcases h with hLess | ⟨hSame, -⟩
  · exact Ordering.isLE_iff_eq_lt_or_eq_eq.mpr (.inl hLess)
  · exact Ordering.isLE_iff_eq_lt_or_eq_eq.mpr (.inr hSame)

namespace KeyInterval

variable {interval : KeyInterval} {reversed : Bool} {key other : Key} {a b : Entry}

theorem start_admits_of_le (hLe : key ≤ other)
    (h : interval.start.all (fun start => decide (start ≤ key)) = true) :
    interval.start.all (fun start => decide (start ≤ other)) = true := by
  cases hStart : interval.start with
  | none => rfl
  | some start =>
      have hKey : start ≤ key := by simpa [hStart] using h
      have hOther : start ≤ other := Std.TransCmp.isLE_trans hKey hLe
      simpa using hOther

theorem stop_admits_of_le (hLe : key ≤ other)
    (h : interval.stop.all (fun stop => decide (other ≤ stop)) = true) :
    interval.stop.all (fun stop => decide (key ≤ stop)) = true := by
  cases hStop : interval.stop with
  | none => rfl
  | some stop =>
      have hOther : other ≤ stop := by simpa [hStop] using h
      have hKey : key ≤ stop := Std.TransCmp.isLE_trans hLe hOther
      simpa using hKey

/-- Behind an entry that the near end admits, it admits every entry. -/
theorem near_of_precedes (h : a.precedes reversed b = true)
    (hNear : interval.near reversed a.key = true) : interval.near reversed b.key = true := by
  rw [Entry.precedes, beq_iff_eq] at h
  cases reversed with
  | false => exact start_admits_of_le (Entry.key_le_of_order h) hNear
  | true => exact stop_admits_of_le (Entry.key_le_of_order h) hNear

/-- Before an entry that the far end admits, it admits every entry. -/
theorem far_of_precedes (h : a.precedes reversed b = true)
    (hFar : interval.far reversed b.key = true) : interval.far reversed a.key = true := by
  rw [Entry.precedes, beq_iff_eq] at h
  cases reversed with
  | false => exact stop_admits_of_le (Entry.key_le_of_order h) hFar
  | true => exact start_admits_of_le (Entry.key_le_of_order h) hFar

end KeyInterval

namespace OrderedIndex

variable {index : OrderedIndex} {key : Key}

theorem atOrAfter?_eq_find? :
    index.atOrAfter? key = (index.path false).find? fun other => decide (key ≤ other.key) := by
  have hTest : (fun other : Entry => (Entry.order ⟨key, default⟩ other).isLE) =
      fun other => decide (key ≤ other.key) := by
    funext other
    have hLeast : (compare (default : Bookmark) other.bookmark).isLE = true := by
      have hEmpty : compare ([] : List UInt8) other.bookmark.bytes ≠ .gt := by
        cases other.bookmark.bytes <;> simp
      exact Ordering.isLE_iff_ne_gt.mpr hEmpty
    simp only [Entry.order]
    rw [Bool.eq_iff_iff, decide_eq_true_iff, Ordering.isLE_then_iff_and]
    simp only [hLeast, or_true, and_true]
    exact Iff.rfl
  rw [atOrAfter?, hTest]
  rfl

theorem atOrBefore?_eq_find? :
    index.atOrBefore? key = (index.path true).find? fun other => decide (other.key ≤ key) := by
  have hTest : (fun other : Entry => Entry.order other ⟨⟨key.bytes ++ [0]⟩, default⟩ == .lt) =
      fun other => decide (other.key ≤ key) := by
    funext other
    have hLeast : compare other.bookmark default ≠ .lt :=
      KeyLayout.compare_bytes_nil other.bookmark.bytes
    rw [Bool.eq_iff_iff, decide_eq_true_iff, beq_iff_eq, Entry.order, Ordering.then_eq_lt]
    simp only [hLeast, and_false, or_false]
    exact (compare_append_zero other.key.bytes key.bytes).trans Key.le_iff_not_gt.symm
  rw [atOrBefore?, before?, getLast?_filter_eq_find?, hTest]

end OrderedIndex

theorem takeWhile_eq_filter {keep : Entry → Bool} {entries : List Entry}
    (hPairs : entries.Pairwise fun a b => keep b = true → keep a = true) :
    entries.takeWhile keep = entries.filter keep := by
  induction entries with
  | nil => rfl
  | cons entry entries ih =>
      obtain ⟨hFirst, hRest⟩ := List.pairwise_cons.mp hPairs
      cases hKeep : keep entry with
      | true => simp [hKeep, ih hRest]
      | false =>
          have hNone : entries.filter keep = [] := by
            refine List.filter_eq_nil_iff.mpr fun other hOther hOtherKeep => ?_
            simp [hFirst other hOther hOtherKeep] at hKeep
          simp [hKeep, hNone]

theorem find?_true (entries : List Entry) : entries.find? (fun _ => true) = entries.head? := by
  cases entries <;> rfl

namespace ValueRange

theorem mode_eq {range : ValueRange} :
    range.mode = if range.reversed then .atOrBefore else .atOrAfter := rfl

end ValueRange

namespace Cursor

variable {cursor : Cursor} {interval : KeyInterval} {reversed : Bool}

/-- A cursor enters an interval at the first entry that its near end admits. -/
theorem enter_eq_land :
    cursor.enter interval (if reversed then .atOrBefore else .atOrAfter) =
      cursor.land ((cursor.index.path reversed).find? fun entry =>
        interval.near reversed entry.key) := by
  cases reversed with
  | false =>
      cases hStart : interval.start with
      | none =>
          simp only [Bool.false_eq_true, if_false, enter, hStart, KeyInterval.near, Option.all_none,
            find?_true]
          rfl
      | some start =>
          simp only [enter, hStart, seek, OrderedIndex.atOrAfter?_eq_find?, KeyInterval.near]
          rfl
  | true =>
      cases hStop : interval.stop with
      | none =>
          simp only [if_true, enter, hStop, KeyInterval.near, Option.all_none, find?_true]
          rw [last, OrderedIndex.last?, List.getLast?_eq_head?_reverse]
          rfl
      | some stop =>
          simp only [enter, hStop, seek, OrderedIndex.atOrBefore?_eq_find?, KeyInterval.near]
          rfl

/-- The entries a cursor still meets in scan direction, its own first. -/
def Reads (reversed : Bool) (cursor : Cursor) : List Entry → Prop
  | [] => cursor.current = none
  | entry :: rest => cursor.current = some entry ∧ ∃ done tail,
      cursor.index.path reversed = done ++ entry :: tail ∧ rest = tail.takeWhile cursor.withinBounds

theorem Reads.placed {entries : List Entry} (hReads : cursor.Reads reversed entries) :
    cursor.placed = (.ok (!entries.isEmpty), cursor) := by
  cases entries with
  | nil =>
      have hCurrent : cursor.current = none := hReads
      rw [Cursor.placed, hCurrent]
      rfl
  | cons entry rest =>
      rw [Cursor.placed, hReads.1]
      rfl

theorem Reads.entry_eq {entry : Entry} {rest : List Entry}
    (hReads : cursor.Reads reversed (entry :: rest)) : cursor.entry = .ok entry := by
  rw [Cursor.entry, hReads.1]

theorem Reads.key_eq {entry : Entry} {rest : List Entry}
    (hReads : cursor.Reads reversed (entry :: rest)) : cursor.key = .ok entry.key := by
  rw [Cursor.key, hReads.entry_eq]
  rfl

theorem Reads.bookmark_eq {entry : Entry} {rest : List Entry}
    (hReads : cursor.Reads reversed (entry :: rest)) : cursor.bookmark = .ok entry.bookmark := by
  rw [Cursor.bookmark, hReads.entry_eq]
  rfl

/-- A movement comes to the entry behind the current one, if the bounds admit that. -/
theorem current_step {entry : Entry} {done tail : List Entry}
    (hCurrent : cursor.current = some entry)
    (hPath : cursor.index.path reversed = done ++ entry :: tail) :
    (cursor.step reversed).current = tail.head?.filter cursor.withinBounds := by
  rw [step_eq, hCurrent]
  simp only [Option.bind_some, OrderedIndex.neighbour?_eq_head? hPath]

/-- A movement takes one entry off the list. -/
theorem Reads.step {entry : Entry} {rest : List Entry}
    (hReads : cursor.Reads reversed (entry :: rest)) :
    (cursor.step reversed).Reads reversed rest := by
  obtain ⟨hCurrent, done, tail, hPath, rfl⟩ := hReads
  have hMoved := current_step hCurrent hPath
  cases tail with
  | nil => exact hMoved
  | cons next tail =>
      rw [List.head?_cons, Option.filter_some] at hMoved
      rw [List.takeWhile_cons]
      cases hWithin : cursor.withinBounds next with
      | false => simpa [Reads, hWithin] using hMoved
      | true =>
          refine ⟨by simpa [hWithin] using hMoved, done ++ [entry], tail, ?_, ?_⟩
          · rw [step_eq]
            simpa [Cursor.index] using hPath
          · rw [step_eq]
            rfl

end Cursor

namespace ValueRange

variable {range : ValueRange} {cursor prepared : Cursor} {interval : KeyInterval}
  {reversed : Bool}

theorem setBound_land {bound : ScanBound} {admits : Key → Bool} (entry : Entry)
    (hAdmits : ∀ key, bound.admits key = admits key) : ∃ after,
    ((cursor.land (some entry)).setBound bound).placed = (.ok (admits entry.key), after) ∧
      after.store = cursor.store ∧ after.slot = cursor.slot ∧
      after.current = (if admits entry.key then some entry else none) ∧
      ∀ other, after.withinBounds other = admits other.key := by
  refine ⟨(cursor.land (some entry)).setBound bound, ?_⟩
  simp only [Cursor.placed, Cursor.setBound, Cursor.land, Cursor.clearBounds, Option.filter_some,
    Cursor.withinBounds]
  cases bound.side <;> cases hKey : admits entry.key <;> simp [hAdmits, hKey]

theorem boundFarEnd_land (entry : Entry) : ∃ after,
    boundFarEnd interval (if reversed then .atOrBefore else .atOrAfter) (cursor.land (some entry)) =
        (.ok (interval.far reversed entry.key), after) ∧
      after.store = cursor.store ∧ after.slot = cursor.slot ∧
      after.current = (if interval.far reversed entry.key then some entry else none) ∧
      ∀ other, after.withinBounds other = interval.far reversed other.key := by
  have hOpen (hFar : ∀ key, interval.far reversed key = true) : ∃ after,
      ((.ok true, cursor.land (some entry)) : Outcome Cursor Bool) =
          (.ok (interval.far reversed entry.key), after) ∧
        after.store = cursor.store ∧ after.slot = cursor.slot ∧
        after.current = (if interval.far reversed entry.key then some entry else none) ∧
        ∀ other, after.withinBounds other = interval.far reversed other.key := by
    refine ⟨cursor.land (some entry), ?_⟩
    simp [hFar, Cursor.land, Cursor.clearBounds, Cursor.withinBounds]
  cases reversed with
  | false =>
      cases hStop : interval.stop with
      | none =>
          simp only [Bool.false_eq_true, if_false, boundFarEnd, farBound?, hStop, Option.map_none]
          exact hOpen fun key => by simp [KeyInterval.far, hStop]
      | some stop =>
          simp only [Bool.false_eq_true, if_false, boundFarEnd, farBound?, hStop, Option.map_some]
          exact setBound_land entry fun key => by simp [KeyInterval.far, hStop, ScanBound.admits]
  | true =>
      cases hStart : interval.start with
      | none =>
          simp only [if_true, boundFarEnd, farBound?, hStart, Option.map_none]
          exact hOpen fun key => by simp [KeyInterval.far, hStart]
      | some start =>
          simp only [if_true, boundFarEnd, farBound?, hStart, Option.map_some]
          exact setBound_land entry fun key => by simp [KeyInterval.far, hStart, ScanBound.admits]

/-- The entries of an interval, as a scan meets them. -/
def hits (index : OrderedIndex) (interval : KeyInterval) (reversed : Bool) : List Entry :=
  (index.path reversed).filter fun entry => interval.contains entry.key

theorem mem_hits {index : OrderedIndex} {entry : Entry} :
    entry ∈ hits index interval reversed ↔
      entry ∈ index.entries.toList ∧ interval.contains entry.key = true := by
  rw [hits, List.mem_filter, OrderedIndex.mem_path]

theorem hits_eq_nil {index : OrderedIndex}
    (hNone : (index.path reversed).find? (fun entry => interval.near reversed entry.key) = none) :
    hits index interval reversed = [] := by
  refine List.filter_eq_nil_iff.mpr fun entry hEntry hContains => ?_
  rw [@KeyInterval.contains_eq interval reversed, Bool.and_eq_true] at hContains
  exact List.find?_eq_none.mp hNone entry hEntry hContains.1

/-- From the first entry that the near end admits on, the far end decides. -/
theorem hits_eq_takeWhile {index : OrderedIndex} {done tail : List Entry} {entry : Entry}
    (hPath : index.path reversed = done ++ entry :: tail)
    (hNear : interval.near reversed entry.key = true)
    (hDone : ∀ other ∈ done, interval.near reversed other.key = false) :
    hits index interval reversed =
      (entry :: tail).takeWhile fun other => interval.far reversed other.key := by
  have hPairs := hPath ▸ @OrderedIndex.path_pairwise index reversed
  obtain ⟨-, hTail, -⟩ := List.pairwise_append.mp hPairs
  have hTailNear : ∀ other ∈ entry :: tail, interval.near reversed other.key = true := by
    intro other hOther
    rcases List.mem_cons.mp hOther with rfl | hOther
    · exact hNear
    · exact KeyInterval.near_of_precedes ((List.pairwise_cons.mp hTail).1 other hOther) hNear
  have hDoneOff : (done.filter fun other => interval.contains other.key) = [] := by
    refine List.filter_eq_nil_iff.mpr fun other hOther => ?_
    simp [@KeyInterval.contains_eq interval reversed, hDone other hOther]
  rw [hits, hPath, List.filter_append, hDoneOff, List.nil_append, takeWhile_eq_filter]
  · refine List.filter_congr fun other hOther => ?_
    simp [@KeyInterval.contains_eq interval reversed, hTailNear other hOther]
  · exact hTail.imp KeyInterval.far_of_precedes

/-- After a filter is applied, the cursor reads the entries of its interval. -/
theorem applyFromStart_reads (hPrepare : range.prepare cursor = (.ok interval, prepared)) :
    ∃ after, range.applyFromStart cursor =
        (.ok (!(hits prepared.index interval range.reversed).isEmpty), after) ∧
      after.store = prepared.store ∧ after.slot = prepared.slot ∧
      after.Reads range.reversed (hits prepared.index interval range.reversed) := by
  unfold applyFromStart
  rw [hPrepare]
  simp only [mode_eq, Cursor.enter_eq_land]
  cases hFind : (prepared.index.path range.reversed).find? fun entry =>
      interval.near range.reversed entry.key with
  | none =>
      rw [hits_eq_nil hFind]
      exact ⟨_, rfl, rfl, rfl, rfl⟩
  | some entry =>
      obtain ⟨hNear, done, tail, hPath, hDone⟩ := List.find?_eq_some_iff_append.mp hFind
      have hHits := hits_eq_takeWhile hPath hNear fun other hOther => by
        simpa using hDone other hOther
      obtain ⟨after, hBound, hStore, hSlot, hCurrent, hWithin⟩ :=
        @boundFarEnd_land prepared interval range.reversed entry
      refine ⟨after, ?_, hStore, hSlot, ?_⟩
      · rw [hHits, List.takeWhile_cons]
        have hPlaced : (prepared.land (some entry)).current.isSome = true := rfl
        simp only [hPlaced, if_true]
        rw [hBound]
        cases interval.far range.reversed entry.key <;> rfl
      · rw [hHits, List.takeWhile_cons]
        cases hFar : interval.far range.reversed entry.key with
        | false => simpa [Cursor.Reads, hFar] using hCurrent
        | true =>
            have hBounds : after.withinBounds = fun other => interval.far range.reversed other.key :=
              funext hWithin
            refine ⟨by simpa [hFar] using hCurrent, done, tail, ?_, by rw [hBounds]⟩
            rw [Cursor.index, hSlot]
            exact hPath

end ValueRange

end IndexedTable

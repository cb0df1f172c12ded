import IndexedTable.Cursor.Record

/-! A walk through an index to an entry of a record, described without a bound on its length, so
that its end is something to prove. -/

namespace IndexedTable.Cursor

variable {bookmark : Bookmark} {interval : KeyInterval} {mode : SeekMode}
  {start outcome : Outcome Cursor Bool}

/-- A walk that looks for a record within an interval, from the outcome of a movement up to its
result. -/
inductive Walks (bookmark : Bookmark) (interval : KeyInterval) (mode : SeekMode) :
    Outcome Cursor Bool → Outcome Cursor Bool → Prop where
  /-- The movement failed. -/
  | failed {cursor : Cursor} {e : IndexError} :
      Walks bookmark interval mode (.error e, cursor) (.error e, cursor)
  /-- There are no more entries. -/
  | lost {cursor : Cursor} : Walks bookmark interval mode (.ok false, cursor) (.ok false, cursor)
  /-- The key of the entry cannot be read. -/
  | keyUnread {cursor : Cursor} {e : IndexError} (hKey : cursor.key = .error e) :
      Walks bookmark interval mode (.ok true, cursor) (.error e, cursor)
  /-- The far end of the interval is passed. -/
  | left {cursor : Cursor} {key : Key} (hKey : cursor.key = .ok key)
      (hPassed : passed interval key mode = true) :
      Walks bookmark interval mode (.ok true, cursor) (.ok false, cursor)
  /-- The record of the entry cannot be read. -/
  | recordUnread {cursor : Cursor} {key : Key} {e : IndexError} (hKey : cursor.key = .ok key)
      (hInside : passed interval key mode = false) (hRecord : cursor.bookmark = .error e) :
      Walks bookmark interval mode (.ok true, cursor) (.error e, cursor)
  /-- The record is met. -/
  | met {cursor : Cursor} {key : Key} (hKey : cursor.key = .ok key)
      (hInside : passed interval key mode = false) (hOwn : cursor.bookmark = .ok bookmark) :
      Walks bookmark interval mode (.ok true, cursor) (.ok true, cursor)
  /-- The entry is that of another record. -/
  | moved {cursor : Cursor} {key : Key} {owner : Bookmark} {outcome : Outcome Cursor Bool}
      (hKey : cursor.key = .ok key) (hInside : passed interval key mode = false)
      (hOwner : cursor.bookmark = .ok owner) (hOther : owner ≠ bookmark)
      (hRest : Walks bookmark interval mode (cursor.step mode.reversed).placed outcome) :
      Walks bookmark interval mode (.ok true, cursor) outcome

/-- Every walk comes to an end. -/
theorem walks_walkTo (start : Outcome Cursor Bool) :
    Walks bookmark interval mode start (walkTo bookmark interval mode start) := by
  fun_induction walkTo bookmark interval mode start with
  | case1 => exact .failed
  | case2 => exact .lost
  | case3 cursor e hKey => exact .keyUnread hKey
  | case4 cursor key hKey hPassed => exact .left hKey hPassed
  | case5 cursor key hKey hInside e hRecord =>
      exact .recordUnread hKey (eq_false_of_ne_true hInside) hRecord
  | case6 cursor key hKey hInside hOwn => exact .met hKey (eq_false_of_ne_true hInside) hOwn
  | case7 cursor key hKey hInside owner hOwner hOther ih =>
      exact .moved hKey (eq_false_of_ne_true hInside) hOwner hOther ih

/-- A walk has one result, the one that the loop computes. -/
theorem Walks.walkTo_eq (hWalks : Walks bookmark interval mode start outcome) :
    walkTo bookmark interval mode start = outcome := by
  induction hWalks with
  | failed | lost => rw [walkTo]
  | keyUnread | left | recordUnread | met | moved =>
      rw [walkTo]
      split <;> simp_all

end IndexedTable.Cursor

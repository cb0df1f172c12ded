import IndexedTable.Scan.Basic

/-! Calls for the next bookmark, described without a bound on their length, so that their end is
something to prove. One call passes over as many entries as it has to; the calls of a whole scan go
on until one finds nothing, and nothing is what every later call finds. -/

namespace IndexedTable.Scan

variable {scan after : Scan} {cursor : Cursor} {bookmark : Bookmark} {e : IndexError}
  {answer : Option (Except IndexError Bookmark) × Scan} {items : List (Except IndexError Bookmark)}

/-- A call for the next bookmark, from a scan up to its answer and the scan it leaves. -/
inductive Answers : Scan → Option (Except IndexError Bookmark) × Scan → Prop where
  /-- The movement fails. -/
  | failed {scan : Scan} {cursor : Cursor} {e : IndexError}
      (hAdvance : scan.advance = (.error e, cursor)) :
      Answers scan (some (.error e), scan.finish cursor)
  /-- There are no more entries. -/
  | ended {scan : Scan} {cursor : Cursor} (hAdvance : scan.advance = (.ok false, cursor)) :
      Answers scan (none, scan.finish cursor)
  /-- The entry cannot be read. -/
  | unread {scan : Scan} {cursor : Cursor} {e : IndexError}
      (hAdvance : scan.advance = (.ok true, cursor)) (hBookmark : cursor.bookmark = .error e) :
      Answers scan (some (.error e), scan.finish cursor)
  /-- The record of the entry is returned, whether or not it was before. -/
  | returned {scan : Scan} {cursor : Cursor} {bookmark : Bookmark}
      (hAdvance : scan.advance = (.ok true, cursor)) (hBookmark : cursor.bookmark = .ok bookmark)
      (hRepeating : scan.filter.distinct = false) :
      Answers scan (some (.ok bookmark), scan.placedAt cursor)
  /-- The record of the entry is returned for the first time. -/
  | first {scan : Scan} {cursor : Cursor} {bookmark : Bookmark}
      (hAdvance : scan.advance = (.ok true, cursor)) (hBookmark : cursor.bookmark = .ok bookmark)
      (hDistinct : scan.filter.distinct = true) (hNew : scan.seen.contains bookmark = false) :
      Answers scan (some (.ok bookmark),
        { scan.placedAt cursor with seen := scan.seen.insert bookmark })
  /-- The record of the entry was returned before, and the call goes on. -/
  | skipped {scan : Scan} {cursor : Cursor} {bookmark : Bookmark}
      {answer : Option (Except IndexError Bookmark) × Scan}
      (hAdvance : scan.advance = (.ok true, cursor)) (hBookmark : cursor.bookmark = .ok bookmark)
      (hDistinct : scan.filter.distinct = true) (hSeen : scan.seen.contains bookmark = true)
      (hRest : Answers (scan.placedAt cursor) answer) :
      Answers scan answer

/-- Every call comes to an end. -/
theorem answers_next (scan : Scan) : scan.Answers scan.next := by
  fun_induction next scan with
  | case1 scan e cursor hAdvance => exact .failed hAdvance
  | case2 scan cursor hAdvance => exact .ended hAdvance
  | case3 scan cursor hAdvance e hBookmark => exact .unread hAdvance hBookmark
  | case4 scan cursor hAdvance bookmark hBookmark hDistinct hSeen ih =>
      exact .skipped hAdvance hBookmark hDistinct hSeen ih
  | case5 scan cursor hAdvance bookmark hBookmark hDistinct hNew =>
      exact .first hAdvance hBookmark hDistinct (eq_false_of_ne_true hNew)
  | case6 scan cursor hAdvance bookmark hBookmark hRepeating =>
      exact .returned hAdvance hBookmark (eq_false_of_ne_true hRepeating)

/-- A call has one answer, the one that the loop computes. -/
theorem Answers.next_eq (hAnswers : scan.Answers answer) : scan.next = answer := by
  induction hAnswers
  all_goals
    rw [next]
    split <;> simp_all

/-- Calls for the next bookmark, from a scan up to the call that finds nothing. -/
inductive Yields : Scan → List (Except IndexError Bookmark) → Scan → Prop where
  | ended {scan after : Scan} (hNext : scan.Answers (none, after)) : Yields scan [] after
  | item {scan between after : Scan} {item : Except IndexError Bookmark}
      {items : List (Except IndexError Bookmark)} (hNext : scan.Answers (some item, between))
      (hRest : Yields between items after) : Yields scan (item :: items) after

/-- A limit that is not reached is as good as none. -/
theorem yields_take {limit : Nat} (hEnded : (take limit scan).ended = true) :
    scan.Yields (take limit scan).items (take limit scan).scan := by
  induction limit generalizing scan with
  | zero => cases hEnded
  | succ limit ih =>
      have hAnswers := scan.answers_next
      rw [take] at hEnded ⊢
      rcases hNext : scan.next with ⟨_ | item, between⟩
      · rw [hNext] at hAnswers
        exact .ended hAnswers
      · rw [hNext] at hAnswers hEnded
        exact .item hAnswers (ih hEnded)

theorem answers_of_done (hPhase : scan.phase = .done) : scan.Answers (none, scan) := by
  obtain ⟨filter, cursor, phase, seen⟩ := scan
  cases hPhase
  exact .ended rfl

/-- A call that finds nothing ends the scan. -/
theorem phase_of_answers (hAnswers : scan.Answers answer) (hNone : answer.1 = none) :
    answer.2.phase = .done := by
  induction hAnswers with
  | ended hAdvance => rfl
  | skipped hAdvance hBookmark hDistinct hSeen hRest ih => exact ih hNone
  | failed | unread | returned | first => cases hNone

/-- After the call that finds nothing, every call finds nothing and changes nothing. -/
theorem Yields.answers_after (hYields : scan.Yields items after) : after.Answers (none, after) := by
  induction hYields with
  | ended hNext => exact answers_of_done (phase_of_answers hNext rfl)
  | item hNext hRest ih => exact ih

end IndexedTable.Scan

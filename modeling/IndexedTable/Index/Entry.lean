import IndexedTable.Key.Basic
import IndexedTable.OrderedSet

/-! Entries of an index: a key and the bookmark of the record that has it. Entries are ordered by
key, and by bookmark where keys agree. -/

namespace IndexedTable

/-- One entry of an index. -/
structure Entry where
  key : Key
  bookmark : Bookmark
  deriving DecidableEq, Repr

namespace Entry

/-- The order of entries: by key, then by bookmark. -/
def order (a b : Entry) : Ordering := (compare a.key b.key).then (compare a.bookmark b.bookmark)

instance : Std.TransCmp order :=
  inferInstanceAs (Std.TransCmp (compareLex (compareOn Entry.key) (compareOn Entry.bookmark)))

/-- Entries that compare equal are the same entry. -/
instance : Std.LawfulEqCmp order where
  eq_of_compare {a b} same := by
    obtain ⟨keys, bookmarks⟩ := Ordering.then_eq_eq.mp same
    cases a
    cases b
    cases Std.LawfulEqCmp.eq_of_compare keys
    cases Std.LawfulEqCmp.eq_of_compare bookmarks
    rfl

/-- Whether an entry comes before another in the direction of a scan. -/
def precedes (reversed : Bool) (a b : Entry) : Bool :=
  (if reversed then order b a else order a b) == .lt

theorem not_precedes_self (reversed : Bool) (a : Entry) : a.precedes reversed a = false := by
  cases reversed <;> simp [precedes, Std.ReflCmp.compare_self]

theorem precedes_trans {reversed : Bool} {a b c : Entry} (hFirst : a.precedes reversed b = true)
    (hSecond : b.precedes reversed c = true) : a.precedes reversed c = true := by
  rw [precedes, beq_iff_eq] at hFirst hSecond ⊢
  cases reversed with
  | false => exact @Std.TransCmp.lt_trans _ order _ a b c hFirst hSecond
  | true => exact @Std.TransCmp.lt_trans _ order _ c b a hSecond hFirst

theorem not_precedes_of_precedes {reversed : Bool} {a b : Entry}
    (h : a.precedes reversed b = true) : b.precedes reversed a = false := by
  refine eq_false_of_ne_true fun hBack => ?_
  have hSelf := precedes_trans h hBack
  rw [not_precedes_self] at hSelf
  cases hSelf

theorem eq_of_not_precedes {reversed : Bool} {a b : Entry}
    (hForward : a.precedes reversed b = false) (hBack : b.precedes reversed a = false) : a = b := by
  have hSwap : order b a = (order a b).swap := Std.OrientedCmp.eq_swap
  refine @Std.LawfulEqCmp.eq_of_compare Entry order _ a b ?_
  cases reversed <;> cases hOrder : order a b <;> simp_all [precedes]

/-- The entry of the clustering index for a record: its key repeats the bookmark. -/
def clustering (bookmark : Bookmark) : Entry := ⟨⟨bookmark.bytes⟩, bookmark⟩

end Entry

/-- Keys in ascending order. -/
abbrev KeySet := OrderedSet Key compare

end IndexedTable

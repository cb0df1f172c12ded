import IndexedTable.Proofs.Results
import IndexedTable.Store.Basic
import Mathlib.Data.List.Pairwise

/-! What the changes of an index do to its entries and to its counters. An entry that is new to an
index without unique keys is never refused and never met again, so that the counters follow the
number of entries. -/

namespace IndexedTable

namespace OrderedSet

variable {α : Type} {cmp : α → α → Ordering}

theorem length_insertAscending {x : α} {ys : List α} (hNew : ∀ y ∈ ys, cmp x y ≠ .eq) :
    (insertAscending cmp x ys).length = ys.length + 1 := by
  induction ys with
  | nil => rfl
  | cons y ys ih =>
      have hRest := ih fun z hz => hNew z (List.mem_cons_of_mem y hz)
      unfold insertAscending
      cases hOrder : cmp x y with
      | lt => simp
      | eq => exact absurd hOrder (hNew y List.mem_cons_self)
      | gt => simp [hRest]

theorem size_insert [Std.TransCmp cmp] {set : OrderedSet α cmp} {x : α}
    (hNew : ∀ y ∈ set.toList, cmp x y ≠ .eq) : (set.insert x).size = set.size + 1 :=
  length_insertAscending hNew

theorem nodup [Std.ReflCmp cmp] (set : OrderedSet α cmp) : set.toList.Nodup := by
  refine set.ascending.imp ?_
  rintro a b hLess rfl
  simp [Std.ReflCmp.compare_self] at hLess

/-- Of the elements that compare equal, the set has one. -/
theorem eq_of_compare_eq [Std.TransCmp cmp] {set : OrderedSet α cmp} {x y : α}
    (hx : x ∈ set.toList) (hy : y ∈ set.toList) (hSame : cmp x y = .eq) : x = y := by
  by_contra hOther
  have hApart : set.toList.Pairwise fun a b => cmp a b ≠ .eq :=
    set.ascending.imp fun hLess => by simp [hLess]
  have hSymm : Std.Symm fun a b => cmp a b ≠ .eq :=
    ⟨fun _ _ h hEqual => h (Std.OrientedCmp.eq_symm hEqual)⟩
  exact hApart.forall hx hy hOther hSame

section Lawful

variable [Std.TransCmp cmp] [Std.LawfulEqCmp cmp] {set : OrderedSet α cmp} {x z : α}

theorem insert_erase (hMem : x ∈ set.toList) : (set.erase x).insert x = set := by
  refine eq_of_mem_iff fun z => ?_
  rw [mem_insert, mem_erase]
  constructor
  · rintro (rfl | ⟨⟨hz, -⟩, -⟩)
    · exact hMem
    · exact hz
  · intro hz
    by_cases hSame : cmp x z = .eq
    · exact .inl (Std.LawfulEqCmp.eq_of_compare hSame).symm
    · exact .inr ⟨⟨hz, hSame⟩, hSame⟩

theorem size_erase (hMem : x ∈ set.toList) : set.size = (set.erase x).size + 1 := by
  have hSize : ((set.erase x).insert x).size = (set.erase x).size + 1 :=
    size_insert fun y hy => (mem_erase.mp hy).2
  rwa [insert_erase hMem] at hSize

theorem mem_insert_of_lawful : z ∈ (set.insert x).toList ↔ z = x ∨ z ∈ set.toList := by
  rw [mem_insert]
  constructor
  · rintro (rfl | ⟨hz, -⟩)
    · exact .inl rfl
    · exact .inr hz
  · rintro (rfl | hz)
    · exact .inl rfl
    · by_cases hSame : cmp x z = .eq
      · exact .inl (Std.LawfulEqCmp.eq_of_compare hSame).symm
      · exact .inr ⟨hz, hSame⟩

theorem mem_ofList {xs : List α} :
    z ∈ (ofList xs : OrderedSet α cmp).toList ↔ z ∈ xs := by
  have hFold : ∀ set : OrderedSet α cmp,
      z ∈ (xs.foldl insert set).toList ↔ z ∈ set.toList ∨ z ∈ xs := by
    induction xs with
    | nil => simp
    | cons x xs ih =>
        intro set
        rw [List.foldl_cons, ih, mem_insert_of_lawful, List.mem_cons]
        tauto
  rw [ofList, hFold]
  simp [empty]

end Lawful

end OrderedSet

namespace OrderedIndex

variable {index : OrderedIndex} {entry other : Entry}

/-- The counters of an index are the number of its entries, as a machine word, and zero. -/
structure Counted (index : OrderedIndex) : Prop where
  total : index.counters.total = UInt64.ofNat index.size
  collapsed : index.counters.collapsed = 0

/-- The index with one more entry. -/
def including (index : OrderedIndex) (entry : Entry) : OrderedIndex :=
  { index with entries := index.entries.insert entry, counters := index.counters.add 1 }

theorem counted_clear : index.clear.Counted := ⟨rfl, rfl⟩

theorem mem_including : other ∈ (index.including entry).entries.toList ↔
    other = entry ∨ other ∈ index.entries.toList :=
  OrderedSet.mem_insert_of_lawful

/-- An entry whose key no other record has is counted where it is stored already, and included
elsewhere. -/
theorem insert_eq_of_own (hOwn : index.unique = true → ∀ other ∈ index.entries.toList,
      other.key = entry.key → other.bookmark = entry.bookmark) :
    index.insert entry = (.ok (), if index.contains entry
      then { index with counters := index.counters.collapse } else index.including entry) := by
  have hTaken : (index.unique && (index.atOrAfter? entry.key).any fun other =>
      decide (other.key = entry.key) && decide (other.bookmark ≠ entry.bookmark)) = false := by
    cases hUnique : index.unique with
    | false => rfl
    | true =>
        cases hFound : index.atOrAfter? entry.key with
        | none => rfl
        | some other =>
            have hOther := hOwn hUnique other (List.mem_of_find?_eq_some hFound)
            simpa using hOther
  rw [insert, hTaken]
  exact (apply_ite (Prod.mk (Except.ok ())) ..).symm

theorem insert_eq_ok (hNew : entry ∉ index.entries.toList)
    (hOwn : index.unique = true → ∀ other ∈ index.entries.toList,
      other.key = entry.key → other.bookmark = entry.bookmark) :
    index.insert entry = (.ok (), index.including entry) := by
  have hContains : index.contains entry = false := by
    rw [← Bool.not_eq_true, contains, OrderedSet.contains_iff_mem]
    exact hNew
  rw [insert_eq_of_own hOwn, hContains]
  rfl

theorem size_including (hNew : entry ∉ index.entries.toList) :
    (index.including entry).size = index.size + 1 := by
  refine OrderedSet.size_insert fun y hy hSame => hNew ?_
  rwa [Std.LawfulEqCmp.eq_of_compare hSame]

/-- The first counter follows the number of entries, also where it wraps. -/
theorem total_including (hTotal : index.counters.total = UInt64.ofNat index.size)
    (hNew : entry ∉ index.entries.toList) :
    (index.including entry).counters.total = UInt64.ofNat (index.including entry).size := by
  rw [size_including hNew, UInt64.ofNat_add]
  exact congrArg (· + 1) hTotal

theorem Counted.including (hCounted : index.Counted) (hNew : entry ∉ index.entries.toList) :
    (index.including entry).Counted :=
  ⟨total_including hCounted.total hNew, hCounted.collapsed⟩

theorem clear_erase : (index.erase entry).clear = index.clear := by
  unfold erase
  split
  · rfl
  · rfl

theorem mem_erase : other ∈ (index.erase entry).entries.toList ↔
    other ∈ index.entries.toList ∧ other ≠ entry := by
  unfold erase
  split
  · have hSame : Entry.order entry other = .eq ↔ entry = other := Std.LawfulEqCmp.compare_eq_iff_eq
    rw [OrderedSet.mem_erase, ne_eq, hSame, eq_comm]
  · rename_i hContains
    rw [contains, OrderedSet.contains_iff_mem] at hContains
    constructor
    · intro hOther
      exact ⟨hOther, fun hSame => hContains (hSame ▸ hOther)⟩
    · exact And.left

theorem total_erase (hTotal : index.counters.total = UInt64.ofNat index.size) :
    (index.erase entry).counters.total = UInt64.ofNat (index.erase entry).size := by
  unfold OrderedIndex.erase
  split
  · rename_i hContains
    rw [contains, OrderedSet.contains_iff_mem] at hContains
    rw [size, OrderedSet.size_erase hContains, UInt64.ofNat_add] at hTotal
    rw [EntryCounters.remove, hTotal, size]
    exact UInt64.add_sub_cancel _ _
  · exact hTotal

theorem size_erase_le : (index.erase entry).size ≤ index.size := by
  unfold OrderedIndex.erase
  split
  · exact List.length_filter_le _ _
  · exact Nat.le_refl _

theorem collapsed_erase : (index.erase entry).counters.collapsed = index.counters.collapsed := by
  unfold OrderedIndex.erase
  split
  · rfl
  · rfl

theorem Counted.erase (hCounted : index.Counted) : (index.erase entry).Counted :=
  ⟨total_erase hCounted.total, collapsed_erase.trans hCounted.collapsed⟩

end OrderedIndex

namespace Slot

variable {bookmark : Bookmark} {slot : Slot} {entry : Entry}

/-- The entries of one record, none of which is there yet, join the others. -/
theorem addKeys_eq_ok {keys : List Key} (hShared : slot.index.unique = false)
    (hCounted : slot.index.Counted) (hDistinct : keys.Nodup)
    (hNew : ∀ key ∈ keys, ⟨key, bookmark⟩ ∉ slot.index.entries.toList) :
    ∃ added, addKeys bookmark keys slot = (.ok (), added) ∧ added.clear = slot.clear ∧
      added.index.Counted ∧ ∀ entry, entry ∈ added.index.entries.toList ↔
        entry ∈ slot.index.entries.toList ∨ (entry.bookmark = bookmark ∧ entry.key ∈ keys) := by
  induction keys generalizing slot with
  | nil => exact ⟨slot, rfl, rfl, hCounted, by simp⟩
  | cons key keys ih =>
      obtain ⟨hFirst, hRest⟩ := List.nodup_cons.mp hDistinct
      have hFree := hNew key List.mem_cons_self
      have hInsert := OrderedIndex.insert_eq_ok hFree (by simp [hShared])
      have hStill : ∀ other ∈ keys,
          ⟨other, bookmark⟩ ∉ (slot.index.including ⟨key, bookmark⟩).entries.toList := by
        intro other hOther hFound
        rcases OrderedIndex.mem_including.mp hFound with hSame | hOld
        · obtain rfl : other = key := congrArg Entry.key hSame
          exact hFirst hOther
        · exact hNew other (List.mem_cons_of_mem key hOther) hOld
      obtain ⟨added, hAdded, hClear, hAddedCounted, hMem⟩ :=
        @ih { slot with index := slot.index.including ⟨key, bookmark⟩ } hShared
          (hCounted.including hFree) hRest hStill
      refine ⟨added, ?_, hClear, hAddedCounted, ?_⟩
      · rw [addKeys, hInsert]
        exact hAdded
      · intro entry
        rw [hMem, OrderedIndex.mem_including, List.mem_cons]
        constructor
        · rintro ((rfl | hOld) | ⟨hBookmark, hKey⟩)
          · exact .inr ⟨rfl, .inl rfl⟩
          · exact .inl hOld
          · exact .inr ⟨hBookmark, .inr hKey⟩
        · rintro (hOld | ⟨rfl, rfl | hKey⟩)
          · exact .inl (.inr hOld)
          · exact .inl (.inl rfl)
          · exact .inr ⟨rfl, hKey⟩

theorem eraseKeys_cons {key : Key} {keys : List Key} :
    slot.eraseKeys bookmark (key :: keys) =
      Slot.eraseKeys { slot with index := slot.index.erase ⟨key, bookmark⟩ } bookmark keys :=
  rfl

theorem clear_eraseKeys {keys : List Key} : (slot.eraseKeys bookmark keys).clear = slot.clear := by
  induction keys generalizing slot with
  | nil => rfl
  | cons key keys ih =>
      rw [eraseKeys_cons, ih]
      simp [clear, OrderedIndex.clear_erase]

theorem counted_eraseKeys {keys : List Key} (hCounted : slot.index.Counted) :
    (slot.eraseKeys bookmark keys).index.Counted := by
  induction keys generalizing slot with
  | nil => exact hCounted
  | cons key keys ih =>
      rw [eraseKeys_cons]
      exact ih hCounted.erase

theorem mem_eraseKeys {keys : List Key} :
    entry ∈ (slot.eraseKeys bookmark keys).index.entries.toList ↔
      entry ∈ slot.index.entries.toList ∧ ¬(entry.bookmark = bookmark ∧ entry.key ∈ keys) := by
  induction keys generalizing slot with
  | nil => simp [eraseKeys]
  | cons key keys ih =>
      have hEntry : entry = ⟨key, bookmark⟩ ↔ entry.key = key ∧ entry.bookmark = bookmark := by
        cases entry
        simp
      rw [eraseKeys_cons, ih, OrderedIndex.mem_erase, ne_eq, hEntry, List.mem_cons]
      tauto

end Slot

end IndexedTable

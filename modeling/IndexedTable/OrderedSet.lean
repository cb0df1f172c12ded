/-! Sets of elements in strictly ascending order, for a comparison that is a total order up to its
own equality. The list of the elements is the view through which every operation is read:
`mem_insert` and `mem_erase` say which elements a change leaves, and `eq_of_mem_iff` that the
elements determine the set. -/

namespace IndexedTable

/-- Elements in strictly ascending order. Elements that compare equal are the same element of the
set, even where they differ otherwise. -/
structure OrderedSet (α : Type) (cmp : α → α → Ordering) where
  toList : List α
  ascending : toList.Pairwise fun a b => cmp a b = .lt

namespace OrderedSet

variable {α : Type} {cmp : α → α → Ordering}

/-- The set without elements. -/
def empty : OrderedSet α cmp := ⟨[], .nil⟩

/-- Puts an element before the first greater one, in the place of an equal one. -/
def insertAscending (cmp : α → α → Ordering) (x : α) : List α → List α
  | [] => [x]
  | y :: ys =>
    match cmp x y with
    | .lt => x :: y :: ys
    | .eq => x :: ys
    | .gt => y :: insertAscending cmp x ys

/-- A new element joins the others and replaces the one that compares equal to it. -/
theorem mem_insertAscending [Std.TransCmp cmp] {x z : α} {ys : List α}
    (ascending : ys.Pairwise fun a b => cmp a b = .lt) :
    z ∈ insertAscending cmp x ys ↔ z = x ∨ (z ∈ ys ∧ cmp x z ≠ .eq) := by
  induction ys with
  | nil => simp [insertAscending]
  | cons y ys ih =>
    obtain ⟨head, tail⟩ := List.pairwise_cons.mp ascending
    unfold insertAscending
    split
    · rename_i less
      have distinct : ∀ w ∈ y :: ys, cmp x w ≠ .eq := by
        intro w hw
        rcases List.mem_cons.mp hw with rfl | hw
        · simp [less]
        · simp [Std.TransCmp.lt_trans less (head w hw)]
      constructor
      · intro hz
        exact (List.mem_cons.mp hz).imp_right fun hz => ⟨hz, distinct z hz⟩
      · rintro (rfl | ⟨hz, -⟩)
        · exact List.mem_cons_self
        · exact List.mem_cons_of_mem x hz
    · rename_i same
      have distinct : ∀ w ∈ ys, cmp x w ≠ .eq := by
        intro w hw
        simp [Std.TransCmp.lt_of_eq_of_lt same (head w hw)]
      constructor
      · intro hz
        exact (List.mem_cons.mp hz).imp_right fun hz => ⟨List.mem_cons_of_mem y hz, distinct z hz⟩
      · rintro (rfl | ⟨hz, other⟩)
        · exact List.mem_cons_self
        · rcases List.mem_cons.mp hz with rfl | hz
          · exact absurd same other
          · exact List.mem_cons_of_mem x hz
    · rename_i greater
      rw [List.mem_cons, List.mem_cons, ih tail]
      constructor
      · rintro (rfl | rfl | ⟨hz, other⟩)
        · exact .inr ⟨.inl rfl, by simp [greater]⟩
        · exact .inl rfl
        · exact .inr ⟨.inr hz, other⟩
      · rintro (rfl | ⟨rfl | hz, other⟩)
        · exact .inr (.inl rfl)
        · exact .inl rfl
        · exact .inr (.inr ⟨hz, other⟩)

theorem pairwise_insertAscending [Std.TransCmp cmp] (x : α) {ys : List α}
    (ascending : ys.Pairwise fun a b => cmp a b = .lt) :
    (insertAscending cmp x ys).Pairwise fun a b => cmp a b = .lt := by
  induction ys with
  | nil => simp [insertAscending]
  | cons y ys ih =>
    obtain ⟨head, tail⟩ := List.pairwise_cons.mp ascending
    unfold insertAscending
    split
    · rename_i less
      refine List.pairwise_cons.mpr ⟨fun z hz => ?_, ascending⟩
      rcases List.mem_cons.mp hz with rfl | hz
      · exact less
      · exact Std.TransCmp.lt_trans less (head z hz)
    · rename_i same
      exact List.pairwise_cons.mpr
        ⟨fun z hz => Std.TransCmp.lt_of_eq_of_lt same (head z hz), tail⟩
    · rename_i greater
      refine List.pairwise_cons.mpr ⟨fun z hz => ?_, ih tail⟩
      rcases (mem_insertAscending tail).mp hz with rfl | ⟨hz, -⟩
      · exact Std.OrientedCmp.gt_iff_lt.mp greater
      · exact head z hz

/-- Adds an element, in the place of one that compares equal. -/
def insert [Std.TransCmp cmp] (set : OrderedSet α cmp) (x : α) : OrderedSet α cmp :=
  ⟨insertAscending cmp x set.toList, pairwise_insertAscending x set.ascending⟩

/-- The set of the elements of a list; of several equal elements the last one counts. -/
def ofList [Std.TransCmp cmp] (xs : List α) : OrderedSet α cmp := xs.foldl insert empty

/-- The elements that pass a test. -/
def filter (set : OrderedSet α cmp) (keep : α → Bool) : OrderedSet α cmp :=
  ⟨set.toList.filter keep, set.ascending.filter keep⟩

/-- Removes the element that compares equal to the given one. -/
def erase (set : OrderedSet α cmp) (x : α) : OrderedSet α cmp :=
  set.filter fun y => cmp x y != .eq

/-- Whether some element compares equal to the given one. -/
def contains (set : OrderedSet α cmp) (x : α) : Bool :=
  set.toList.any fun y => cmp x y == .eq

/-- The number of elements. -/
def size (set : OrderedSet α cmp) : Nat := set.toList.length

/-- Whether there are no elements. -/
def isEmpty (set : OrderedSet α cmp) : Bool := set.toList.isEmpty

theorem mem_insert [Std.TransCmp cmp] {set : OrderedSet α cmp} {x z : α} :
    z ∈ (set.insert x).toList ↔ z = x ∨ (z ∈ set.toList ∧ cmp x z ≠ .eq) :=
  mem_insertAscending set.ascending

theorem mem_erase {set : OrderedSet α cmp} {x z : α} :
    z ∈ (set.erase x).toList ↔ z ∈ set.toList ∧ cmp x z ≠ .eq := by
  simp [erase, filter]

theorem contains_iff_mem [Std.LawfulEqCmp cmp] {set : OrderedSet α cmp} {x : α} :
    set.contains x = true ↔ x ∈ set.toList := by
  simp [contains]

/-- Two ascending lists with the same members are the same list. -/
theorem eq_of_ascending [Std.TransCmp cmp] {xs ys : List α}
    (hxs : xs.Pairwise fun a b => cmp a b = .lt) (hys : ys.Pairwise fun a b => cmp a b = .lt)
    (same : ∀ z, z ∈ xs ↔ z ∈ ys) : xs = ys := by
  induction xs generalizing ys with
  | nil =>
    exact (List.eq_nil_iff_forall_not_mem.mpr fun z hz => by simpa using (same z).mpr hz).symm
  | cons x xs ih =>
    cases ys with
    | nil => simpa using (same x).mp List.mem_cons_self
    | cons y ys =>
      obtain ⟨xFirst, xTail⟩ := List.pairwise_cons.mp hxs
      obtain ⟨yFirst, yTail⟩ := List.pairwise_cons.mp hys
      have irrefl : ∀ z, cmp z z ≠ .lt := fun z => by simp [Std.ReflCmp.compare_self]
      have heads : x = y := by
        rcases List.mem_cons.mp ((same x).mp List.mem_cons_self) with h | hxy
        · exact h
        · rcases List.mem_cons.mp ((same y).mpr List.mem_cons_self) with h | hyx
          · exact h.symm
          · exact absurd (Std.TransCmp.lt_trans (xFirst y hyx) (yFirst x hxy)) (irrefl x)
      subst heads
      congr 1
      refine ih xTail yTail fun z => ⟨fun hz => ?_, fun hz => ?_⟩
      · rcases List.mem_cons.mp ((same z).mp (List.mem_cons_of_mem x hz)) with rfl | h
        · exact absurd (xFirst z hz) (irrefl z)
        · exact h
      · rcases List.mem_cons.mp ((same z).mpr (List.mem_cons_of_mem x hz)) with rfl | h
        · exact absurd (yFirst z hz) (irrefl z)
        · exact h

/-- A set is determined by its elements. -/
theorem eq_of_mem_iff [Std.TransCmp cmp] {a b : OrderedSet α cmp}
    (same : ∀ z, z ∈ a.toList ↔ z ∈ b.toList) : a = b := by
  obtain ⟨xs, hxs⟩ := a
  obtain ⟨ys, hys⟩ := b
  have lists : xs = ys := eq_of_ascending hxs hys same
  subst lists
  rfl

end OrderedSet

end IndexedTable

import IndexedTable.Cursor.Basic

/-! Movement in the direction of a scan. Every movement leaves fewer entries ahead of the cursor,
which is what ends the loops that move one. -/

namespace IndexedTable

namespace OrderedIndex

variable {index : OrderedIndex} {entry other : Entry} {reversed : Bool}

/-- The entries in the order in which a scan meets them. -/
def path (index : OrderedIndex) (reversed : Bool) : List Entry :=
  if reversed then index.entries.toList.reverse else index.entries.toList

theorem mem_path : entry ∈ index.path reversed ↔ entry ∈ index.entries.toList := by
  unfold path
  split
  · exact List.mem_reverse
  · exact Iff.rfl

/-- The next entry in the direction of a scan. -/
def neighbour? (index : OrderedIndex) (reversed : Bool) (entry : Entry) : Option Entry :=
  if reversed then index.before? entry else index.after? entry

theorem getLast?_filter_eq_find? (p : Entry → Bool) :
    (index.entries.toList.filter p).getLast? = (index.path true).find? p := by
  rw [List.getLast?_eq_head?_reverse, ← List.filter_reverse, List.head?_filter]
  rfl

theorem neighbour?_eq_find? :
    index.neighbour? reversed entry = (index.path reversed).find? (entry.precedes reversed) := by
  cases reversed with
  | false => rfl
  | true => exact getLast?_filter_eq_find? _

theorem precedes_of_neighbour? (hNext : index.neighbour? reversed entry = some other) :
    other ∈ index.entries.toList ∧ entry.precedes reversed other = true := by
  rw [neighbour?_eq_find?] at hNext
  exact ⟨mem_path.mp (List.mem_of_find?_eq_some hNext), List.find?_some hNext⟩

/-- Fewer entries come behind the next entry: itself does not, and all that do come behind the
given one too. -/
theorem countP_lt_of_neighbour? (hNext : index.neighbour? reversed entry = some other) :
    index.entries.toList.countP (other.precedes reversed) <
      index.entries.toList.countP (entry.precedes reversed) := by
  obtain ⟨hMem, hPrecedes⟩ := precedes_of_neighbour? hNext
  have hBehind (entries : List Entry) : entries.countP (other.precedes reversed) ≤
      entries.countP (entry.precedes reversed) :=
    List.countP_mono_left fun behind _ => Entry.precedes_trans hPrecedes
  obtain ⟨front, back, hSplit⟩ := List.append_of_mem hMem
  have hFront := hBehind front
  have hBack := hBehind back
  rw [hSplit, List.countP_append, List.countP_append, List.countP_cons_of_pos hPrecedes,
    List.countP_cons_of_neg (by simp [Entry.not_precedes_self])]
  omega

end OrderedIndex

namespace Cursor

variable {cursor : Cursor} {reversed : Bool} {entry : Entry}

/-- One movement in scan direction. -/
def step (reversed : Bool) (cursor : Cursor) : Cursor :=
  if reversed then cursor.previous else cursor.next

theorem step_eq : cursor.step reversed =
    { cursor with
      current := cursor.current.bind fun entry =>
        (cursor.index.neighbour? reversed entry).filter cursor.withinBounds } := by
  cases reversed <;> rfl

/-- The number of entries from the current one on, in scan direction. -/
def ahead (reversed : Bool) (cursor : Cursor) : Nat :=
  match cursor.current with
  | none => 0
  | some entry => cursor.index.entries.toList.countP (entry.precedes reversed) + 1

/-- A movement leaves fewer entries ahead. -/
theorem ahead_step_lt (hCurrent : cursor.current = some entry) :
    (cursor.step reversed).ahead reversed < cursor.ahead reversed := by
  have hIndex : (cursor.step reversed).index = cursor.index := by
    rw [step_eq]
    rfl
  unfold ahead
  rw [hCurrent, hIndex]
  cases hMoved : (cursor.step reversed).current with
  | none => exact Nat.succ_pos _
  | some other =>
      rw [step_eq, hCurrent] at hMoved
      obtain ⟨hNext, -⟩ := Option.filter_eq_some_iff.mp hMoved
      exact Nat.succ_lt_succ (OrderedIndex.countP_lt_of_neighbour? hNext)

theorem exists_current_of_key {key : Key} (hKey : cursor.key = .ok key) :
    ∃ entry, cursor.current = some entry := by
  unfold Cursor.key Cursor.entry at hKey
  cases hCurrent : cursor.current with
  | none =>
      rw [hCurrent] at hKey
      cases hKey
  | some entry =>
      rw [hCurrent] at hKey
      exact ⟨entry, rfl⟩

end Cursor

end IndexedTable

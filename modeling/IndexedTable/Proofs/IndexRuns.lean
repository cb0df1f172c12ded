import IndexedTable.Proofs.IndexPositions
import Mathlib.Data.List.Induction

/-! Runs of an index: any changes, in any order, refused insertions included. In a unique index
every key keeps one entry, and that is why asking the first entry at or after a key is enough to
refuse another record. One counter follows the number of entries, the other the insertions since the
last clearing that met their entry. -/

namespace IndexedTable

namespace OrderedIndex

variable {index : OrderedIndex} {entry : Entry} {operation : IndexOperation}
  {operations : List IndexOperation} {repeated : Nat}

/-- Whether the change at a place of a run inserts an entry that is stored by then, in an index that
is not cleared afterwards. -/
def repeatsAt (index : OrderedIndex) (operations : List IndexOperation) (place : Nat) : Bool :=
  match operations[place]? with
  | some (.insert entry) =>
    (index.run (operations.take place)).contains entry && !(operations.drop place).contains .clear
  | _ => false

/-- The number of repeated insertions since the last clearing. -/
def repeats (index : OrderedIndex) (operations : List IndexOperation) : Nat :=
  (List.range operations.length).countP (index.repeatsAt operations)

/-- The number of repeated insertions after one more change. -/
def repeatsAfter (index : OrderedIndex) (repeated : Nat) : IndexOperation → Nat
  | .insert entry => if index.contains entry then repeated + 1 else repeated
  | .erase _ => repeated
  | .clear => 0

theorem run_append_singleton :
    index.run (operations ++ [operation]) = (index.run operations).apply operation :=
  List.foldl_concat ..

theorem repeatsAt_append_of_lt {place : Nat} (hPlace : place < operations.length) :
    index.repeatsAt (operations ++ [operation]) place =
      (index.repeatsAt operations place && operation != .clear) := by
  have hTake : (operations ++ [operation]).take place = operations.take place :=
    List.take_append_of_le_length (Nat.le_of_lt hPlace)
  have hDrop : (operations ++ [operation]).drop place = operations.drop place ++ [operation] :=
    List.drop_append_of_le_length (Nat.le_of_lt hPlace)
  rw [repeatsAt, repeatsAt, List.getElem?_append_left hPlace, hTake, hDrop]
  split
  · rw [List.contains_append, Bool.not_or, Bool.and_assoc]
    congr 2
    cases operation <;> rfl
  · rfl

theorem repeatsAt_append_length : index.repeatsAt (operations ++ [operation]) operations.length =
    match operation with
    | .insert entry => (index.run operations).contains entry
    | _ => false := by
  rw [repeatsAt, List.getElem?_concat_length, List.take_left, List.drop_left]
  cases operation with
  | insert entry => exact Bool.and_true _
  | erase entry => rfl
  | clear => rfl

/-- One more change decides whether the repeated insertions before it still count, and whether it is
one itself. -/
theorem repeats_append_singleton :
    index.repeats (operations ++ [operation]) =
      (index.run operations).repeatsAfter (index.repeats operations) operation := by
  have hEarlier : (List.range operations.length).countP
      (index.repeatsAt (operations ++ [operation])) =
        if operation = .clear then 0 else index.repeats operations := by
    have hSame := List.countP_congr fun place hPlace =>
      Bool.coe_iff_coe.mpr (@repeatsAt_append_of_lt index operation operations place
        (List.mem_range.mp hPlace))
    rw [hSame]
    split
    · subst operation
      simp
    · rename_i hOther
      simp [bne_iff_ne.mpr hOther, repeats]
  rw [repeats, List.length_append, List.length_singleton, List.range_succ, List.countP_append,
    List.countP_singleton, hEarlier, repeatsAt_append_length]
  cases operation with
  | insert entry =>
      simp only [repeatsAfter, reduceCtorEq, if_false]
      split <;> rfl
  | erase entry => rfl
  | clear => rfl

/-- The counters tell the number of entries and that of some repeated insertions, both as machine
words. -/
structure Tallied (index : OrderedIndex) (repeated : Nat) : Prop where
  total : index.counters.total = UInt64.ofNat index.size
  collapsed : index.counters.collapsed = UInt64.ofNat repeated

/-- A removal is counted only where it finds its entry, so that the first counter does not wrap
below zero. -/
theorem Tallied.apply (hTallied : index.Tallied repeated) (hKeys : index.KeysDiffer)
    (operation : IndexOperation) :
    (index.apply operation).Tallied (index.repeatsAfter repeated operation) := by
  cases operation with
  | insert entry =>
      rw [repeatsAfter]
      rcases apply_insert hKeys entry with ⟨hEntry, hApply⟩ | ⟨hEntry, -, hApply⟩ |
        ⟨hEntry, -, hApply⟩
      · rw [hApply, if_pos (contains_iff.mpr hEntry)]
        refine ⟨hTallied.total, ?_⟩
        rw [UInt64.ofNat_add, ← hTallied.collapsed]
        rfl
      · rw [hApply, if_neg (mt contains_iff.mp hEntry)]
        exact ⟨total_including hTallied.total hEntry, hTallied.collapsed⟩
      · rw [hApply, if_neg (mt contains_iff.mp hEntry)]
        exact hTallied
  | erase entry => exact ⟨total_erase hTallied.total, collapsed_erase.trans hTallied.collapsed⟩
  | clear => exact ⟨rfl, rfl⟩

theorem KeysDiffer.run (hKeys : index.KeysDiffer) (operations : List IndexOperation) :
    (index.run operations).KeysDiffer := by
  induction operations generalizing index with
  | nil => exact hKeys
  | cons operation operations ih => exact ih (hKeys.apply operation)

/-- In a unique index no two entries share a key. -/
theorem KeysDiffer.pairwise (hKeys : index.KeysDiffer) (hUnique : index.unique = true) :
    index.entries.toList.Pairwise fun a b => a.key ≠ b.key := by
  apply index.entries.nodup.pairwise_of_forall_ne
  intro a ha b hb hOther hSame
  exact hOther (hKeys b hb hUnique a ha hSame)

theorem Tallied.run (hTallied : index.Tallied 0) (hKeys : index.KeysDiffer)
    (operations : List IndexOperation) :
    (index.run operations).Tallied (index.repeats operations) := by
  induction operations using List.reverseRecOn with
  | nil => exact hTallied
  | append_singleton operations operation ih =>
      rw [run_append_singleton, repeats_append_singleton]
      exact ih.apply (hKeys.run operations) operation

theorem clear_run (operations : List IndexOperation) :
    (index.run operations).clear = index.clear := by
  induction operations generalizing index with
  | nil => rfl
  | cons operation operations ih => exact ih.trans (clear_apply operation)

theorem insert_eq_error_iff (hKeys : index.KeysDiffer) {error : IndexError} :
    (index.insert entry).1 = .error error ↔
      error = .duplicateKey index.name ∧ index.unique = true ∧ ∃ other ∈ index.entries.toList,
        other.key = entry.key ∧ other.bookmark ≠ entry.bookmark := by
  have hRefused : ¬ entry.MayJoin index.unique index.held ↔ _ := Entry.not_mayJoin_iff
  constructor
  · intro hError
    by_cases hMay : entry.MayJoin index.unique index.held
    · rw [insert_eq_of_mayJoin hMay] at hError
      cases hError
    · rw [insert_eq_error hKeys hMay] at hError
      exact ⟨(Except.error.inj hError).symm, hRefused.mp hMay⟩
  · rintro ⟨rfl, hTaken⟩
    rw [insert_eq_error hKeys (hRefused.mpr hTaken)]

/-- A refused insertion leaves the index as it was. -/
theorem insert_unchanged {error : IndexError} (hError : (index.insert entry).1 = .error error) :
    (index.insert entry).2 = index := by
  unfold insert at hError ⊢
  dsimp only at hError ⊢
  split at hError
  · rename_i hTaken
    rw [if_pos hTaken]
  · split at hError <;> cases hError

/-- An entry that is stored is never refused, and only counted. -/
theorem insert_of_mem (hKeys : index.KeysDiffer) (hEntry : entry ∈ index.entries.toList) :
    index.insert entry = (.ok (), { index with counters := index.counters.collapse }) := by
  rw [insert_eq_of_mayJoin (hKeys entry hEntry), if_pos (contains_iff.mpr hEntry)]

theorem size_apply_le (hKeys : index.KeysDiffer) (operation : IndexOperation) :
    (index.apply operation).size ≤ index.size + 1 := by
  cases operation with
  | insert entry =>
      rcases apply_insert hKeys entry with ⟨-, hApply⟩ | ⟨hNew, -, hApply⟩ | ⟨-, -, hApply⟩
      · rw [hApply]
        exact Nat.le_succ _
      · rw [hApply, size_including hNew]
      · rw [hApply]
        exact Nat.le_succ _
  | erase entry => exact Nat.le_succ_of_le size_erase_le
  | clear => exact Nat.zero_le _

theorem size_run_le (hKeys : index.KeysDiffer) (operations : List IndexOperation) :
    (index.run operations).size ≤ index.size + operations.length := by
  induction operations generalizing index with
  | nil => exact Nat.le_refl _
  | cons operation operations ih =>
      have hRest := ih (hKeys.apply operation)
      have hFirst := size_apply_le hKeys operation
      change ((index.apply operation).run operations).size ≤ _
      rw [List.length_cons]
      omega

theorem repeats_le_length : index.repeats operations ≤ operations.length := by
  have hCount := @List.countP_le_length _ (index.repeatsAt operations)
    (List.range operations.length)
  rwa [List.length_range] at hCount

/-- What an index keeps after some changes: which entries it holds together and which it refuses,
and what its counters tell when that many insertions since the last clearing were repeated. -/
structure Keeps (index : OrderedIndex) (name : String) (unique : Bool) (repeated : Nat) : Prop where
  distinct : unique = true → index.entries.toList.Pairwise fun a b => a.key ≠ b.key
  refused : ∀ entry error, (index.insert entry).1 = .error error ↔
    error = .duplicateKey name ∧ unique = true ∧
      ∃ other ∈ index.entries.toList, other.key = entry.key ∧ other.bookmark ≠ entry.bookmark
  unchanged : ∀ entry error, (index.insert entry).1 = .error error →
    (index.insert entry).2 = index
  met : ∀ entry ∈ index.entries.toList, index.insert entry = (.ok (),
    { index with counters := { index.counters with collapsed := index.counters.collapsed + 1 } })
  tallied : index.Tallied repeated

/-- Whatever changes led to an index, a unique one has one entry for each key and refuses exactly
the entries that give a stored key another bookmark, and one that is not unique refuses none. A
stored entry is only counted. The counters are the numbers of entries and of repeated insertions
since the last clearing, in machine words, and so the numbers themselves in every run that a word
can count. -/
theorem keeps_run (name : String) (layout : KeyLayout) (unique : Bool)
    (operations : List IndexOperation) :
    let index := (empty name layout unique).run operations
    let repeated := (empty name layout unique).repeats operations
    index.Keeps name unique repeated ∧
      (operations.length < 2 ^ 64 →
        index.counters.total.toNat = index.size ∧ index.counters.collapsed.toNat = repeated) := by
  intro index repeated
  have hEmpty : (empty name layout unique).KeysDiffer :=
    fun _ hEntry => absurd hEntry List.not_mem_nil
  have hKeys : index.KeysDiffer := hEmpty.run operations
  have hTallied : index.Tallied repeated := Tallied.run ⟨rfl, rfl⟩ hEmpty operations
  have hShape : index.clear = empty name layout unique := clear_run operations
  have hName : index.name = name := congrArg (·.name) hShape
  have hUnique : index.unique = unique := congrArg (·.unique) hShape
  refine ⟨⟨?_, ?_, ?_, ?_, hTallied⟩, fun hLength => ⟨?_, ?_⟩⟩
  · intro hSet
    exact hKeys.pairwise (hUnique.trans hSet)
  · intro entry error
    rw [insert_eq_error_iff hKeys, hName, hUnique]
  · intro entry error hError
    exact insert_unchanged hError
  · intro entry hEntry
    exact insert_of_mem hKeys hEntry
  · have hSize : index.size ≤ 0 + operations.length := size_run_le hEmpty operations
    rw [Nat.zero_add] at hSize
    rw [hTallied.total]
    exact UInt64.toNat_ofNat_of_lt' (Nat.lt_of_le_of_lt hSize hLength)
  · have hRepeats := @repeats_le_length (empty name layout unique) operations
    rw [hTallied.collapsed]
    exact UInt64.toNat_ofNat_of_lt' (Nat.lt_of_le_of_lt hRepeats hLength)

/-- A stored entry met again before a clearing and after it, a key refused to another record, and an
absent entry removed. -/
theorem keeps_run_of_refused :
    let operations : List IndexOperation := [.insert ⟨⟨[1]⟩, ⟨[7]⟩⟩, .insert ⟨⟨[1]⟩, ⟨[7]⟩⟩, .clear,
      .insert ⟨⟨[1]⟩, ⟨[8]⟩⟩, .insert ⟨⟨[1]⟩, ⟨[8]⟩⟩, .insert ⟨⟨[1]⟩, ⟨[7]⟩⟩,
      .erase ⟨⟨[1]⟩, ⟨[7]⟩⟩]
    let index := (empty "keys" [] true).run operations
    operations.length < 2 ^ 64 ∧
      index.insert ⟨⟨[1]⟩, ⟨[7]⟩⟩ = (.error (.duplicateKey "keys"), index) ∧
      index.counters.total.toNat = 1 ∧ index.counters.collapsed.toNat = 1 := by
  intro operations index
  obtain ⟨hKeeps, hCounters⟩ := keeps_run "keys" [] true operations
  obtain ⟨hTotal, hCollapsed⟩ := hCounters (by decide)
  have hTaken : ∃ other ∈ index.entries.toList, other.key = ⟨[1]⟩ ∧ other.bookmark ≠ ⟨[7]⟩ := by
    decide
  have hRefused : (index.insert ⟨⟨[1]⟩, ⟨[7]⟩⟩).1 = .error (.duplicateKey "keys") :=
    (hKeeps.refused _ _).mpr ⟨rfl, rfl, hTaken⟩
  exact ⟨by decide, Prod.ext hRefused (hKeeps.unchanged _ _ hRefused), hTotal.trans (by decide),
    hCollapsed.trans (by decide)⟩

end OrderedIndex

end IndexedTable

import IndexedTable.Proofs.CursorRuns

/-! The positional questions of an index against the list of its entries, whatever changes led to
it. The entries are those that the changes would leave of any set, with a key refused that another
record of a unique index has. A search for a key is one for an entry: of all entries that a key can
have, the one with the empty bookmark comes first, and no key comes between a key and its extension
by a zero byte. Steps from neighbour to neighbour, from either end, meet every entry in its
place. -/

namespace IndexedTable

namespace Entry

/-- What a search for the first entry of a kind answers: an entry of the kind with none of the kind
before it in the list, or nothing where there is none. -/
def IsFirst (kind : Entry → Prop) (entries : List Entry) : Option Entry → Prop
  | some entry => kind entry ∧ ∃ front back, entries = front ++ entry :: back ∧
      ∀ other ∈ front, ¬ kind other
  | none => ∀ entry ∈ entries, ¬ kind entry

/-- What a search for the last entry of a kind answers. -/
def IsLast (kind : Entry → Prop) (entries : List Entry) (answer : Option Entry) : Prop :=
  IsFirst kind entries.reverse answer

theorem isFirst_find? {kind : Entry → Prop} {test : Entry → Bool}
    (hTest : ∀ entry, test entry = true ↔ kind entry) (entries : List Entry) :
    IsFirst kind entries (entries.find? test) := by
  cases hFind : entries.find? test with
  | none =>
      intro entry hEntry hKind
      exact List.find?_eq_none.mp hFind entry hEntry ((hTest entry).mpr hKind)
  | some entry =>
      obtain ⟨hEntry, front, back, hSplit, hFront⟩ := List.find?_eq_some_iff_append.mp hFind
      refine ⟨(hTest entry).mp hEntry, front, back, hSplit, fun other hOther hKind => ?_⟩
      have hNot := hFront other hOther
      rw [(hTest other).mpr hKind] at hNot
      cases hNot

/-- Whether an entry may join the given ones. In a unique index no other record may have its key. -/
def MayJoin (entry : Entry) (unique : Bool) (held : Set Entry) : Prop :=
  unique = true → ∀ other ∈ held, other.key = entry.key → other = entry

theorem not_mayJoin_iff {entry : Entry} {unique : Bool} {held : Set Entry} :
    ¬ entry.MayJoin unique held ↔ unique = true ∧
      ∃ other ∈ held, other.key = entry.key ∧ other.bookmark ≠ entry.bookmark := by
  have hSame (other : Entry) (hKey : other.key = entry.key) :
      other = entry ↔ other.bookmark = entry.bookmark := by
    cases other
    cases entry
    cases hKey
    simp
  have hOwn : entry.MayJoin unique held ↔ (unique = true → ∀ other ∈ held,
      other.key = entry.key → other.bookmark = entry.bookmark) :=
    forall_congr' fun _ => forall₂_congr fun other _ => forall_congr' fun hKey => hSame other hKey
  rw [hOwn]
  push Not
  exact Iff.rfl

end Entry

/-- One change of an index. -/
inductive IndexOperation where
  | insert (entry : Entry)
  | erase (entry : Entry)
  | clear
  deriving DecidableEq

namespace IndexOperation

/-- The entries that a change makes of the given ones. -/
def effect (unique : Bool) (held : Set Entry) : IndexOperation → Set Entry
  | .insert entry => {other | other ∈ held ∨ other = entry ∧ entry.MayJoin unique held}
  | .erase entry => {other | other ∈ held ∧ other ≠ entry}
  | .clear => ∅

/-- The entries that some changes make of none. -/
def held (unique : Bool) (operations : List IndexOperation) : Set Entry :=
  operations.foldl (effect unique) ∅

end IndexOperation

namespace OrderedIndex

variable {index : OrderedIndex} {entry other : Entry} {reversed : Bool}

/-- The index that a change leaves behind. -/
def apply (index : OrderedIndex) : IndexOperation → OrderedIndex
  | .insert entry => (index.insert entry).2
  | .erase entry => index.erase entry
  | .clear => index.clear

/-- The index that several changes leave behind. -/
def run (index : OrderedIndex) (operations : List IndexOperation) : OrderedIndex :=
  operations.foldl apply index

/-- The entries of an index, as a set. -/
def held (index : OrderedIndex) : Set Entry := {entry | entry ∈ index.entries.toList}

theorem contains_iff : index.contains entry = true ↔ entry ∈ index.held :=
  OrderedSet.contains_iff_mem

/-- In a unique index every key has one entry. -/
def KeysDiffer (index : OrderedIndex) : Prop :=
  ∀ entry ∈ index.held, entry.MayJoin index.unique index.held

theorem isFirst_atOrAfter? (key : Key) :
    Entry.IsFirst (key ≤ ·.key) index.entries.toList (index.atOrAfter? key) := by
  rw [atOrAfter?_eq_find?]
  exact Entry.isFirst_find? (fun _ => decide_eq_true_iff) _

theorem isLast_atOrBefore? (key : Key) :
    Entry.IsLast (·.key ≤ key) index.entries.toList (index.atOrBefore? key) := by
  rw [atOrBefore?_eq_find?]
  exact Entry.isFirst_find? (fun _ => decide_eq_true_iff) _

theorem isFirst_after? (entry : Entry) :
    Entry.IsFirst (entry.order · = .lt) index.entries.toList (index.after? entry) :=
  Entry.isFirst_find? (fun _ => beq_iff_eq) _

theorem isLast_before? (entry : Entry) :
    Entry.IsLast (·.order entry = .lt) index.entries.toList (index.before? entry) := by
  rw [before?, getLast?_filter_eq_find?]
  exact Entry.isFirst_find? (fun _ => beq_iff_eq) _

/-- In a unique index a search for the key of an entry finds the entry. -/
theorem atOrAfter?_key (hKeys : index.KeysDiffer) (hUnique : index.unique = true)
    (hEntry : entry ∈ index.entries.toList) : index.atOrAfter? entry.key = some entry := by
  have hFirst := @isFirst_atOrAfter? index entry.key
  cases hSearch : index.atOrAfter? entry.key with
  | none =>
      rw [hSearch] at hFirst
      exact absurd (Std.le_refl _) (hFirst entry hEntry)
  | some found =>
      rw [hSearch] at hFirst
      obtain ⟨hFrom, front, back, hSplit, hFront⟩ := hFirst
      have hFound : found ∈ index.entries.toList := hSplit ▸ List.mem_append_cons_self
      -- The entry is not in front of the one found, so the found key is no greater.
      have hOnward : entry ∈ found :: back := by
        refine (List.mem_append.mp (hSplit ▸ hEntry)).resolve_left fun hBefore => ?_
        exact hFront entry hBefore (Std.le_refl _)
      have hSame : found.key = entry.key := by
        rcases List.mem_cons.mp hOnward with rfl | hLater
        · rfl
        · have hPairs := hSplit ▸ index.entries.ascending
          obtain ⟨-, hRest, -⟩ := List.pairwise_append.mp hPairs
          have hLess := (List.pairwise_cons.mp hRest).1 entry hLater
          exact Std.le_antisymm (Entry.key_le_of_order hLess) hFrom
      exact congrArg some (hKeys entry hEntry hUnique found hFound hSame)

/-- The refusal of an entry asks only the first entry at or after its key, which is the other record
that has the key, if there is one. -/
theorem insert_eq_error (hKeys : index.KeysDiffer)
    (hRefused : ¬ entry.MayJoin index.unique index.held) :
    index.insert entry = (.error (.duplicateKey index.name), index) := by
  obtain ⟨hUnique, other, hOther, hKey, hBookmark⟩ := Entry.not_mayJoin_iff.mp hRefused
  have hFound : index.atOrAfter? entry.key = some other := by
    rw [← hKey]
    exact atOrAfter?_key hKeys hUnique hOther
  simp [insert, hUnique, hFound, hKey, hBookmark]

theorem insert_eq_of_mayJoin (hMay : entry.MayJoin index.unique index.held) :
    index.insert entry = (.ok (), if index.contains entry
      then { index with counters := index.counters.collapse } else index.including entry) :=
  insert_eq_of_own fun hUnique stored hStored hKey =>
    congrArg Entry.bookmark (hMay hUnique stored hStored hKey)

/-- What an insertion makes of an index: it counts an entry that is stored, includes one that may
join the others, and refuses the rest. -/
theorem apply_insert (hKeys : index.KeysDiffer) (entry : Entry) :
    (entry ∈ index.held ∧
      index.apply (.insert entry) = { index with counters := index.counters.collapse }) ∨
    (entry ∉ index.held ∧ entry.MayJoin index.unique index.held ∧
      index.apply (.insert entry) = index.including entry) ∨
    (entry ∉ index.held ∧ ¬ entry.MayJoin index.unique index.held ∧
      index.apply (.insert entry) = index) := by
  by_cases hEntry : entry ∈ index.held
  · refine .inl ⟨hEntry, ?_⟩
    rw [apply, insert_eq_of_mayJoin (hKeys entry hEntry), if_pos (contains_iff.mpr hEntry)]
  · refine .inr ?_
    by_cases hMay : entry.MayJoin index.unique index.held
    · refine .inl ⟨hEntry, hMay, ?_⟩
      rw [apply, insert_eq_of_mayJoin hMay, if_neg (mt contains_iff.mp hEntry)]
    · refine .inr ⟨hEntry, hMay, ?_⟩
      rw [apply, insert_eq_error hKeys hMay]

theorem held_insert (hKeys : index.KeysDiffer) :
    (index.apply (.insert entry)).held =
      IndexOperation.effect index.unique index.held (.insert entry) := by
  ext other
  change other ∈ (index.apply (.insert entry)).held ↔
    other ∈ index.held ∨ other = entry ∧ entry.MayJoin index.unique index.held
  rcases apply_insert hKeys entry with ⟨hEntry, hApply⟩ | ⟨-, hMay, hApply⟩ | ⟨-, hMay, hApply⟩
  · rw [hApply]
    exact ⟨.inl, fun hOther => hOther.elim id fun hSame => hSame.1 ▸ hEntry⟩
  · rw [hApply]
    simp only [hMay, and_true]
    exact mem_including.trans or_comm
  · rw [hApply]
    simp only [hMay, and_false, or_false]

theorem held_apply (hKeys : index.KeysDiffer) (operation : IndexOperation) :
    (index.apply operation).held = operation.effect index.unique index.held := by
  cases operation with
  | insert entry => exact held_insert hKeys
  | erase entry => exact Set.ext fun _ => mem_erase
  | clear => exact Set.ext fun _ => List.mem_nil_iff _

/-- A change leaves an index what it is apart from its entries and counters. -/
theorem clear_apply (operation : IndexOperation) : (index.apply operation).clear = index.clear := by
  cases operation with
  | insert entry =>
      simp only [apply, insert]
      split
      · rfl
      · split <;> rfl
  | erase entry => exact clear_erase
  | clear => rfl

theorem unique_apply (operation : IndexOperation) :
    (index.apply operation).unique = index.unique := by
  have hShape := congrArg OrderedIndex.unique (@clear_apply index operation)
  exact hShape

theorem KeysDiffer.apply (hKeys : index.KeysDiffer) (operation : IndexOperation) :
    (index.apply operation).KeysDiffer := by
  intro first hFirst hUnique second hSecond hSame
  rw [unique_apply] at hUnique
  rw [held_apply hKeys] at hFirst hSecond
  cases operation with
  | insert entry =>
      rcases hFirst with hFirst | ⟨rfl, hMay⟩
      · rcases hSecond with hSecond | ⟨rfl, hMay⟩
        · exact hKeys first hFirst hUnique second hSecond hSame
        · exact (hMay hUnique first hFirst hSame.symm).symm
      · rcases hSecond with hSecond | ⟨rfl, -⟩
        · exact hMay hUnique second hSecond hSame
        · rfl
  | erase entry => exact hKeys first hFirst.1 hUnique second hSecond.1 hSame
  | clear => exact hFirst.elim

/-- Changes to an index change the set of its entries as they would change any set of entries. -/
theorem held_run (hKeys : index.KeysDiffer) (operations : List IndexOperation) :
    (index.run operations).held =
      operations.foldl (IndexOperation.effect index.unique) index.held := by
  induction operations generalizing index with
  | nil => rfl
  | cons operation operations ih =>
      rw [List.foldl_cons, ← held_apply hKeys, ← unique_apply operation]
      exact ih (hKeys.apply operation)

/-- The entries before a given one, which need not be stored, are those at the places below its
rank. -/
theorem order_eq_lt_iff_lt_rank {place : Nat} (hOther : index.nth? place = some other) :
    other.order entry = .lt ↔ place < index.rank entry := by
  obtain ⟨hPlace, hAt⟩ := List.getElem?_eq_some_iff.mp hOther
  have hSplit : index.entries.toList =
      index.entries.toList.take place ++ other :: index.entries.toList.drop (place + 1) := by
    rw [← hAt, ← List.drop_eq_getElem_cons, List.take_append_drop]
  have hLength : (index.entries.toList.take place).length = place :=
    List.length_take_of_le (Nat.le_of_lt hPlace)
  have hPairs := hSplit ▸ index.entries.ascending
  obtain ⟨-, hRest, hFront⟩ := List.pairwise_append.mp hPairs
  constructor
  · intro hLess
    have hThrough : ∀ before ∈ index.entries.toList.take place ++ [other],
        before.order entry = .lt := by
      intro before hBefore
      rcases List.mem_append.mp hBefore with hBefore | hLast
      · exact Std.TransCmp.lt_trans (hFront before hBefore other List.mem_cons_self) hLess
      · rwa [List.mem_singleton.mp hLast]
    have hLeast := length_le_rank (hSplit.trans (List.append_cons ..)) hThrough
    rwa [List.length_append, hLength] at hLeast
  · intro hRank
    by_contra hNot
    have hFrom : ∀ later ∈ other :: index.entries.toList.drop (place + 1),
        later.order entry ≠ .lt := by
      intro later hLater hLess
      rcases List.mem_cons.mp hLater with rfl | hLater
      · exact hNot hLess
      · exact hNot (Std.TransCmp.lt_trans ((List.pairwise_cons.mp hRest).1 later hLater) hLess)
    have hMost := rank_le_length hSplit hFrom
    rw [hLength] at hMost
    exact Nat.not_lt_of_le hMost hRank

/-- The way from a place through neighbour after neighbour, to where there is none. -/
inductive Walk (index : OrderedIndex) (reversed : Bool) : Option Entry → List Entry → Prop where
  | ended : Walk index reversed none []
  | visited {entry : Entry} {rest : List Entry}
      (next : Walk index reversed (index.neighbour? reversed entry) rest) :
      Walk index reversed (some entry) (entry :: rest)

theorem walk_of_path_eq_append {done tail : List Entry}
    (hPath : index.path reversed = done ++ tail) : index.Walk reversed tail.head? tail := by
  induction tail generalizing done with
  | nil => exact .ended
  | cons entry tail ih =>
      refine .visited ?_
      rw [neighbour?_eq_head? hPath]
      exact ih (hPath.trans (List.append_cons ..))

theorem Walk.unique {place : Option Entry} {first second : List Entry}
    (hFirst : index.Walk reversed place first) (hSecond : index.Walk reversed place second) :
    first = second := by
  induction hFirst generalizing second with
  | ended =>
      cases hSecond
      rfl
  | visited _ ih =>
      cases hSecond with
      | visited next => exact congrArg _ (ih next)

/-- The way from the end of an index where a scan begins meets the entries in scan order. -/
theorem walk_head?_path_iff {visited : List Entry} :
    index.Walk reversed (index.path reversed).head? visited ↔ visited = index.path reversed := by
  have hPath : index.Walk reversed (index.path reversed).head? (index.path reversed) :=
    walk_of_path_eq_append (List.nil_append _).symm
  exact ⟨fun hWalk => hWalk.unique hPath, fun hSame => hSame ▸ hPath⟩

/-- What the positional questions of an index answer when the given entries are in it. -/
structure Answers (index : OrderedIndex) (entries : List Entry) : Prop where
  ascending : entries.Pairwise fun a b => a.order b = .lt
  size : index.size = entries.length
  contains : ∀ entry, index.contains entry = true ↔ entry ∈ entries
  atOrAfter : ∀ key, Entry.IsFirst (key ≤ ·.key) entries (index.atOrAfter? key)
  atOrBefore : ∀ key, Entry.IsLast (·.key ≤ key) entries (index.atOrBefore? key)
  after : ∀ entry, Entry.IsFirst (entry.order · = .lt) entries (index.after? entry)
  before : ∀ entry, Entry.IsLast (·.order entry = .lt) entries (index.before? entry)
  nth : ∀ place, index.nth? place = entries[place]?
  rank : ∀ entry, index.rank entry = (entries.filter fun other => other.order entry = .lt).length
  below_rank : ∀ entry place other, index.nth? place = some other →
    (other.order entry = .lt ↔ place < index.rank entry)
  rank_nth : ∀ place < index.size, ∃ entry, index.nth? place = some entry ∧
    index.rank entry = place
  onward : ∀ visited, index.Walk false index.first? visited ↔ visited = entries
  backward : ∀ visited, index.Walk true index.last? visited ↔ visited = entries.reverse

theorem answers (index : OrderedIndex) : index.Answers index.entries.toList where
  ascending := index.entries.ascending
  size := rfl
  contains _ := OrderedSet.contains_iff_mem
  atOrAfter := isFirst_atOrAfter?
  atOrBefore := isLast_atOrBefore?
  after := isFirst_after?
  before := isLast_before?
  nth _ := rfl
  rank _ := List.countP_eq_length_filter
  below_rank _ _ _ := order_eq_lt_iff_lt_rank
  rank_nth place hPlace :=
    ⟨index.entries.toList[place], List.getElem?_eq_getElem hPlace,
      rank_of_nth? (List.getElem?_eq_getElem hPlace)⟩
  onward _ := walk_head?_path_iff
  backward _ := by
    rw [last?, List.getLast?_eq_head?_reverse]
    exact walk_head?_path_iff

/-- Whatever changes led to an index, it holds the entries that the changes make of none, and
answers every positional question as the ascending list of these entries does. -/
theorem answers_run (name : String) (layout : KeyLayout) (unique : Bool)
    (operations : List IndexOperation) :
    ∃ entries : List Entry,
      (∀ entry, entry ∈ entries ↔ entry ∈ IndexOperation.held unique operations) ∧
      ((empty name layout unique).run operations).Answers entries := by
  have hKeys : (empty name layout unique).KeysDiffer :=
    fun _ hEntry => absurd hEntry List.not_mem_nil
  have hNone : (empty name layout unique).held = ∅ := Set.ext fun _ => List.mem_nil_iff _
  refine ⟨_, fun entry => ?_, answers _⟩
  have hRun := held_run hKeys operations
  rw [hNone] at hRun
  exact Set.ext_iff.mp hRun entry

/-- Keys that a zero byte sets apart, without bookmarks, and a key that another record has. -/
example :
    let index := (empty "keys" [] true).run [.insert ⟨⟨[0, 0]⟩, ⟨[]⟩⟩, .insert ⟨⟨[0]⟩, ⟨[]⟩⟩,
      .insert ⟨⟨[]⟩, ⟨[]⟩⟩, .insert ⟨⟨[0]⟩, ⟨[7]⟩⟩, .erase ⟨⟨[1]⟩, ⟨[]⟩⟩]
    index.size = 3 ∧ index.atOrAfter? ⟨[0]⟩ = some ⟨⟨[0]⟩, ⟨[]⟩⟩ ∧
      index.atOrBefore? ⟨[0]⟩ = some ⟨⟨[0]⟩, ⟨[]⟩⟩ ∧
      index.rank ⟨⟨[0]⟩, ⟨[7]⟩⟩ = 2 := by
  decide

end OrderedIndex

end IndexedTable

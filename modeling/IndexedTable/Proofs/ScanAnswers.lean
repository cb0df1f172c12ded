import IndexedTable.Proofs.PlanBinding

/-! What the scan of a compiled conjunction answers. It returns the records that satisfy the
conditions, each by its first matching entry in scan direction. The conditions are read by the order
of keys; the answer by the order of values is the same unless the bits of a not-a-number value
decide. -/

namespace IndexedTable

variable {compareValues : Value → Value → Ordering} {reversed : Bool} {conditions : List Condition}
  {arguments : List Value}

/-- In scan order the first entry to pass a test is the one that no other such entry precedes. -/
theorem find?_eq_some_iff_first {entries : List Entry} {test : Entry → Bool} {entry : Entry}
    (hPairs : entries.Pairwise fun a b => a.precedes reversed b = true) :
    entries.find? test = some entry ↔ entry ∈ entries ∧ test entry = true ∧
      ∀ other ∈ entries, test other = true → other.precedes reversed entry = false := by
  induction entries with
  | nil => simp
  | cons head rest ih =>
      obtain ⟨hHead, hRest⟩ := List.pairwise_cons.mp hPairs
      rw [List.find?_cons]
      cases hTest : test head with
      | false =>
          rw [ih hRest]
          constructor
          · rintro ⟨hEntry, hPass, hFirst⟩
            refine ⟨List.mem_cons_of_mem _ hEntry, hPass, fun other hOther hOtherPass => ?_⟩
            rcases List.mem_cons.mp hOther with rfl | hOther
            · simp [hTest] at hOtherPass
            · exact hFirst other hOther hOtherPass
          · rintro ⟨hEntry, hPass, hFirst⟩
            rcases List.mem_cons.mp hEntry with rfl | hEntry
            · simp [hTest] at hPass
            · refine ⟨hEntry, hPass, fun other hOther => ?_⟩
              exact hFirst other (List.mem_cons_of_mem _ hOther)
      | true =>
          constructor
          · intro hSame
            obtain rfl := Option.some.inj hSame
            refine ⟨List.mem_cons_self, hTest, fun other hOther _ => ?_⟩
            rcases List.mem_cons.mp hOther with rfl | hOther
            · exact Entry.not_precedes_self reversed other
            · exact Entry.not_precedes_of_precedes (hHead other hOther)
          · rintro ⟨hEntry, -, hFirst⟩
            rcases List.mem_cons.mp hEntry with rfl | hEntry
            · rfl
            · have hNot := hFirst head List.mem_cons_self hTest
              simp [hHead entry hEntry] at hNot

namespace Slot

/-- The first of the matching entries of a record on the way of a scan. -/
def FirstMatch (compareValues : Value → Value → Ordering) (slot : Slot) (reversed : Bool)
    (conditions : List Condition) (arguments : List Value) (record : StoredRecord) (entry : Entry) :
    Prop :=
  slot.Matches compareValues conditions arguments record entry ∧
    ∀ other, slot.Matches compareValues conditions arguments record other →
      other.precedes reversed entry = false

variable {slot : Slot} {table : Table} {records : List StoredRecord} {index : IndexDefinition}
  {columns : List Column} {record : StoredRecord} {entry first : Entry} {interval : KeyInterval}

theorem FirstMatch.unique
    (hEntry : slot.FirstMatch compareValues reversed conditions arguments record entry)
    (hFirst : slot.FirstMatch compareValues reversed conditions arguments record first) :
    entry = first :=
  Entry.eq_of_not_precedes (hFirst.2 entry hEntry.1) (hEntry.2 first hFirst.1)

/-- Entries with the same bookmark match the conditions for the same record. -/
theorem Matches.owner_eq {compareOther : Value → Value → Ordering} {owner : StoredRecord}
    {other : Entry} {stored : OrderedSet StoredRecord StoredRecord.order}
    (hOwned : owner ∈ stored.toList) (hRecord : record ∈ stored.toList)
    (hOther : slot.Matches compareOther conditions arguments owner other)
    (hEntry : slot.Matches compareValues conditions arguments record entry)
    (hSame : other.bookmark = entry.bookmark) : owner = record :=
  StoredRecord.eq_of_bookmark_eq hOwned hRecord (hOther.1.symm.trans (hSame.trans hEntry.1))

theorem Indexes.matches_iff (hIndexes : slot.Indexes table records index columns)
    (hRecord : record ∈ records) :
    slot.Matches compareValues conditions arguments record entry ↔
      ∃ values, Chooses record.row columns values ∧
        KeyLayout.Accepts compareValues conditions arguments index.columns slot.index.layout values ∧
        entry = ⟨⟨slot.index.layout.bytes values⟩, record.bookmark⟩ := by
  unfold Matches
  rw [hIndexes.definition]
  constructor
  · rintro ⟨hBookmark, values, hValues, hKey, hAccepts⟩
    have hChooses := (hIndexes.mem_keyValues _ _).mp hValues
    rw [KeyLayout.makeKey_of_fits (hIndexes.fits record hRecord values hChooses)] at hKey
    refine ⟨values, hChooses, hAccepts, ?_⟩
    cases entry
    exact congrArg₂ Entry.mk (Except.ok.inj hKey).symm hBookmark
  · rintro ⟨values, hChooses, hAccepts, rfl⟩
    exact ⟨rfl, values, (hIndexes.mem_keyValues _ _).mpr hChooses,
      KeyLayout.makeKey_of_fits (hIndexes.fits record hRecord values hChooses), hAccepts⟩

theorem Indexes.mem_entries_of_matches (hIndexes : slot.Indexes table records index columns)
    (hRecord : record ∈ records)
    (hMatches : slot.Matches compareValues conditions arguments record entry) :
    entry ∈ slot.index.entries.toList := by
  obtain ⟨values, hChooses, -, hEntry⟩ := (hIndexes.matches_iff hRecord).mp hMatches
  exact (hIndexes.mem_entries entry).mpr ⟨record, hRecord, values, hChooses, hEntry⟩

/-- A record with a matching entry has a first one. -/
theorem Indexes.exists_firstMatch (hIndexes : slot.Indexes table records index columns)
    (hRecord : record ∈ records)
    (hMatches : slot.Matches compareValues conditions arguments record entry) :
    ∃ first, slot.FirstMatch compareValues reversed conditions arguments record first := by
  classical
  let test : Entry → Bool := fun other =>
    decide (slot.Matches compareValues conditions arguments record other)
  have hEntry : entry ∈ slot.index.path reversed :=
    OrderedIndex.mem_path.mpr (hIndexes.mem_entries_of_matches hRecord hMatches)
  have hFound : ((slot.index.path reversed).find? test).isSome :=
    List.find?_isSome.mpr ⟨entry, hEntry, decide_eq_true hMatches⟩
  obtain ⟨first, hFirst⟩ := Option.isSome_iff_exists.mp hFound
  obtain ⟨-, hTest, hNone⟩ := (find?_eq_some_iff_first OrderedIndex.path_pairwise).mp hFirst
  refine ⟨first, of_decide_eq_true hTest, fun other hOther => ?_⟩
  exact hNone other (OrderedIndex.mem_path.mpr (hIndexes.mem_entries_of_matches hRecord hOther))
    (decide_eq_true hOther)

/-- A record satisfies conditions on key columns exactly when one of its entries matches. -/
theorem Indexes.satisfies_iff (hIndexes : slot.Indexes table records index columns)
    (hRecord : record ∈ records)
    (hCovered : ∀ condition ∈ conditions, ∃ part ∈ index.columns, part.column = condition.field) :
    table.Satisfies compareValues conditions arguments record.row ↔
      ∃ entry, slot.Matches compareValues conditions arguments record entry := by
  rw [hIndexes.toKeyedBy.satisfies_iff hCovered]
  constructor
  · rintro ⟨values, hChooses, hAccepts⟩
    exact ⟨_, (hIndexes.matches_iff hRecord).mpr ⟨values, hChooses, hAccepts, rfl⟩⟩
  · rintro ⟨entry, hMatches⟩
    obtain ⟨values, hChooses, hAccepts, -⟩ := (hIndexes.matches_iff hRecord).mp hMatches
    exact ⟨values, hChooses, hAccepts⟩

theorem KeyedBy.accepts_congr {compareOther : Value → Value → Ordering} {row : Row}
    {values : List Value} (hKeyed : slot.KeyedBy table index columns)
    (hChooses : Chooses row columns values)
    (hAgree : ∀ part ∈ index.columns, ∀ column, table.column? part.column = some column →
      ∀ element ∈ column.elements row,
        ∀ own ∈ Condition.effective (Condition.on conditions part.column),
          (own.Accepts compareValues column.type arguments element ↔
            own.Accepts compareOther column.type arguments element)) :
    KeyLayout.Accepts compareValues conditions arguments index.columns slot.index.layout values ↔
      KeyLayout.Accepts compareOther conditions arguments index.columns slot.index.layout
        values := by
  rw [hKeyed.layout]
  have hParts := hKeyed.parts
  clear hKeyed
  generalize index.columns = parts at hParts hAgree ⊢
  induction hParts generalizing values with
  | nil => simp [KeyLayout.Accepts]
  | cons hColumn _ ih =>
      obtain ⟨element, others, hElement, hOthers, rfl⟩ := List.forall₂_cons_left_iff.mp hChooses
      obtain ⟨hOwn, hRest⟩ := List.forall_mem_cons.mp hAgree
      refine and_congr ?_ (ih hOthers hRest)
      exact forall₂_congr fun own hEffective => hOwn _ hColumn element hElement own hEffective

theorem FirstMatch.congr {compareOther : Value → Value → Ordering}
    (hSame : ∀ entry, slot.Matches compareValues conditions arguments record entry ↔
      slot.Matches compareOther conditions arguments record entry) :
    slot.FirstMatch compareValues reversed conditions arguments record entry ↔
      slot.FirstMatch compareOther reversed conditions arguments record entry := by
  simp only [FirstMatch, hSame]

/-- The interval of a scan holds the matching entries. -/
theorem Indexes.mem_hits_iff (hIndexes : slot.Indexes table records index columns)
    (hContains : ∀ values, slot.index.layout.Fits values → values.length = slot.index.layout.width →
      (interval.contains ⟨slot.index.layout.bytes values⟩ = true ↔
        KeyLayout.Accepts compareValues conditions arguments index.columns slot.index.layout
          values)) :
    entry ∈ ValueRange.hits slot.index interval reversed ↔
      ∃ record ∈ records, slot.Matches compareValues conditions arguments record entry := by
  rw [ValueRange.mem_hits, hIndexes.mem_entries]
  constructor
  · rintro ⟨⟨record, hRecord, values, hChooses, rfl⟩, hIn⟩
    have hFits := hIndexes.fits record hRecord values hChooses
    have hAccepts := (hContains values hFits (hIndexes.length_of_chooses hChooses)).mp hIn
    exact ⟨record, hRecord, (hIndexes.matches_iff hRecord).mpr ⟨values, hChooses, hAccepts, rfl⟩⟩
  · rintro ⟨record, hRecord, hMatches⟩
    obtain ⟨values, hChooses, hAccepts, rfl⟩ := (hIndexes.matches_iff hRecord).mp hMatches
    have hFits := hIndexes.fits record hRecord values hChooses
    exact ⟨⟨record, hRecord, values, hChooses, rfl⟩,
      (hContains values hFits (hIndexes.length_of_chooses hChooses)).mpr hAccepts⟩

theorem KeyedBy.single_of_repeatsRecords (hKeyed : slot.KeyedBy table index columns)
    (hOnce : index.repeatsRecords table = false) :
    ∀ column ∈ columns, column.multiValued = false := by
  intro column hColumn
  obtain ⟨part, hPart, hFound⟩ := hKeyed.parts.exists_of_mem_right hColumn
  simp only [IndexDefinition.repeatsRecords, Bool.or_eq_false_iff, List.any_eq_false] at hOnce
  simpa [hFound] using hOnce.2 part hPart

/-- Without a multi-valued column no record has a second entry. -/
theorem Indexes.firstMatch_iff_matches (hIndexes : slot.Indexes table records index columns)
    (hOnce : index.repeatsRecords table = false) (hRecord : record ∈ records) :
    slot.FirstMatch compareValues reversed conditions arguments record entry ↔
      slot.Matches compareValues conditions arguments record entry := by
  have hSingle := hIndexes.single_of_repeatsRecords hOnce
  refine ⟨And.left, fun hMatches => ⟨hMatches, fun other hOther => ?_⟩⟩
  obtain ⟨values, hChooses, -, rfl⟩ := (hIndexes.matches_iff hRecord).mp hMatches
  obtain ⟨others, hOthers, -, rfl⟩ := (hIndexes.matches_iff hRecord).mp hOther
  rw [chooses_of_single hSingle] at hChooses hOthers
  rw [hChooses, hOthers]
  exact Entry.not_precedes_self reversed _

end Slot

namespace Scan

variable {scan : Scan} {slot : Slot} {table : Table} {index : IndexDefinition}
  {columns : List Column} {records : OrderedSet StoredRecord StoredRecord.order}
  {interval : KeyInterval} {entry : Entry}

/-- A scan keeps the first matching entry of each record. -/
theorem mem_kept_iff (hSeen : scan.seen = .empty)
    (hDistinct : scan.filter.distinct = index.repeatsRecords table)
    (hIndexes : slot.Indexes table records.toList index columns)
    (hHits : ∀ entry, entry ∈ ValueRange.hits slot.index interval reversed ↔
      ∃ record ∈ records.toList, slot.Matches compareValues conditions arguments record entry) :
    entry ∈ scan.kept (ValueRange.hits slot.index interval reversed) ↔
      ∃ record ∈ records.toList,
        slot.FirstMatch compareValues reversed conditions arguments record entry := by
  unfold kept
  rw [hDistinct]
  cases hRepeats : index.repeatsRecords table with
  | false =>
      simp only [Bool.false_eq_true, if_false]
      rw [hHits]
      refine exists_congr fun record => and_congr_right fun hRecord => ?_
      rw [hIndexes.firstMatch_iff_matches hRepeats hRecord]
  | true =>
      have hPairs : (ValueRange.hits slot.index interval reversed).Pairwise fun a b =>
          a.precedes reversed b = true := OrderedIndex.path_pairwise.filter _
      simp only [if_true]
      rw [mem_unseen, hSeen, find?_eq_some_iff_first hPairs]
      constructor
      · rintro ⟨-, hEntry, -, hFirst⟩
        obtain ⟨record, hRecord, hMatches⟩ := (hHits entry).mp hEntry
        refine ⟨record, hRecord, hMatches, fun other hOther => ?_⟩
        refine hFirst other ((hHits other).mpr ⟨record, hRecord, hOther⟩) (decide_eq_true ?_)
        rw [hOther.1, hMatches.1]
      · rintro ⟨record, hRecord, hMatches, hFirst⟩
        refine ⟨rfl, (hHits entry).mpr ⟨record, hRecord, hMatches⟩, decide_eq_true rfl, ?_⟩
        intro other hOther hSame
        obtain ⟨owner, hOwned, hOwner⟩ := (hHits other).mp hOther
        obtain rfl := hOwner.owner_eq hOwned hRecord hMatches (of_decide_eq_true hSame)
        exact hFirst other hOwner

end Scan

namespace Store

/-- Entries that answer the conditions: in scan order, for each record that satisfies the conditions
its first matching entry, and no others. -/
structure AnsweredBy (compareValues : Value → Value → Ordering) (store : Store) (slot : Slot)
    (reversed : Bool) (conditions : List Condition) (arguments : List Value) (hits : List Entry) :
    Prop where
  ordered : hits.Pairwise fun a b => a.precedes reversed b = true
  distinct : (hits.map (·.bookmark)).Nodup
  records : ∀ bookmark, bookmark ∈ hits.map (·.bookmark) ↔ ∃ record ∈ store.records.toList,
    record.bookmark = bookmark ∧
      store.table.Satisfies compareValues conditions arguments record.row
  first : ∀ entry ∈ hits, entry ∈ slot.index.entries.toList ∧
    ∃ record ∈ store.records.toList,
      slot.FirstMatch compareValues reversed conditions arguments record entry

variable {store : Store} {slot : Slot} {index : IndexDefinition} {columns : List Column}
  {hits : List Entry}

/-- Entries in scan order answer the conditions exactly when they are the first matches. -/
theorem answeredBy_iff (hIndexes : slot.Indexes store.table store.records.toList index columns)
    (hCovered : ∀ condition ∈ conditions, ∃ part ∈ index.columns, part.column = condition.field)
    (hOrdered : hits.Pairwise fun a b => a.precedes reversed b = true) :
    store.AnsweredBy compareValues slot reversed conditions arguments hits ↔
      ∀ entry, entry ∈ hits ↔ ∃ record ∈ store.records.toList,
        slot.FirstMatch compareValues reversed conditions arguments record entry := by
  constructor
  · intro hAnswered entry
    refine ⟨fun hEntry => (hAnswered.first entry hEntry).2, ?_⟩
    rintro ⟨record, hRecord, hFirst⟩
    have hSatisfies := (hIndexes.satisfies_iff hRecord hCovered).mpr ⟨entry, hFirst.1⟩
    obtain ⟨hit, hHit, hBookmark⟩ :=
      List.mem_map.mp ((hAnswered.records record.bookmark).mpr ⟨record, hRecord, rfl, hSatisfies⟩)
    obtain ⟨-, owner, hOwned, hOwner⟩ := hAnswered.first hit hHit
    obtain rfl := hOwner.1.owner_eq hOwned hRecord hFirst.1 (hBookmark.trans hFirst.1.1.symm)
    exact hFirst.unique hOwner ▸ hHit
  · intro hHits
    refine ⟨hOrdered, ?_, fun bookmark => ?_, fun entry hEntry => ?_⟩
    · have hNodup : hits.Nodup := hOrdered.imp fun {a b} hPrecedes hSame => by
        simp [hSame, Entry.not_precedes_self] at hPrecedes
      refine hNodup.map_on fun a ha b hb hSame => ?_
      obtain ⟨record, hRecord, hFirst⟩ := (hHits a).mp ha
      obtain ⟨other, hOther, hOtherFirst⟩ := (hHits b).mp hb
      obtain rfl := hFirst.1.owner_eq hRecord hOther hOtherFirst.1 hSame
      exact hFirst.unique hOtherFirst
    · rw [List.mem_map]
      constructor
      · rintro ⟨entry, hEntry, rfl⟩
        obtain ⟨record, hRecord, hFirst⟩ := (hHits entry).mp hEntry
        exact ⟨record, hRecord, hFirst.1.1.symm,
          (hIndexes.satisfies_iff hRecord hCovered).mpr ⟨entry, hFirst.1⟩⟩
      · rintro ⟨record, hRecord, rfl, hSatisfies⟩
        obtain ⟨entry, hMatches⟩ := (hIndexes.satisfies_iff hRecord hCovered).mp hSatisfies
        obtain ⟨first, hFirst⟩ := hIndexes.exists_firstMatch hRecord hMatches
        exact ⟨first, (hHits first).mpr ⟨record, hRecord, hFirst⟩, hFirst.1.1⟩
    · obtain ⟨record, hRecord, hFirst⟩ := (hHits entry).mp hEntry
      exact ⟨hIndexes.mem_entries_of_matches hRecord hFirst.1, record, hRecord, hFirst⟩

/-- Entries that answer by one order answer by another exactly when the first matches agree. -/
theorem AnsweredBy.other_iff (compareOther : Value → Value → Ordering)
    (hIndexes : slot.Indexes store.table store.records.toList index columns)
    (hCovered : ∀ condition ∈ conditions, ∃ part ∈ index.columns, part.column = condition.field)
    (hAnswered : store.AnsweredBy compareValues slot reversed conditions arguments hits) :
    store.AnsweredBy compareOther slot reversed conditions arguments hits ↔
      ∀ record ∈ store.records.toList, ∀ entry,
        slot.FirstMatch compareValues reversed conditions arguments record entry ↔
          slot.FirstMatch compareOther reversed conditions arguments record entry := by
  have hHits := (answeredBy_iff hIndexes hCovered hAnswered.ordered).mp hAnswered
  rw [answeredBy_iff hIndexes hCovered hAnswered.ordered]
  constructor
  · intro hOther record hRecord entry
    have hSame := (hHits entry).symm.trans (hOther entry)
    constructor
    · intro hFirst
      obtain ⟨owner, hOwned, hOwner⟩ := hSame.mp ⟨record, hRecord, hFirst⟩
      obtain rfl := hOwner.1.owner_eq hOwned hRecord hFirst.1 rfl
      exact hOwner
    · intro hFirst
      obtain ⟨owner, hOwned, hOwner⟩ := hSame.mpr ⟨record, hRecord, hFirst⟩
      obtain rfl := hOwner.1.owner_eq hOwned hRecord hFirst.1 rfl
      exact hOwner
  · intro hSame entry
    rw [hHits]
    exact exists_congr fun record => and_congr_right fun hRecord => hSame record hRecord entry

/-- Whether keys tell the stored elements and the bounds apart like their values: no not-a-number
value takes part whose bits count. -/
def Comparable (store : Store) (conditions : List Condition) (arguments : List Value) : Prop :=
  ∀ record ∈ store.records.toList, ∀ condition ∈ conditions, ∀ column,
    store.table.column? condition.field = some column → ∀ element ∈ column.elements record.row,
      ∀ own ∈ Condition.effective (Condition.on conditions condition.field), ∀ given bound,
        own.source.resolve arguments = .ok given → given.coerce? column.type = some bound →
          element.Comparable bound

/-- Without not-a-number values everything is comparable. -/
theorem comparable_of_not_isNaN
    (hStored : ∀ record ∈ store.records.toList, ∀ condition ∈ conditions, ∀ column,
      store.table.column? condition.field = some column →
        ∀ element ∈ column.elements record.row, element.isNaN = false)
    (hBounds : ∀ condition ∈ conditions, ∀ given,
      condition.source.resolve arguments = .ok given → given.isNaN = false) :
    store.Comparable conditions arguments := by
  intro record hRecord condition hCondition column hColumn element hElement own hOwn given bound
    hGiven hBound
  have hOwnCondition := List.mem_of_mem_filter (Condition.mem_of_mem_effective hOwn)
  have hBoundNumber := Value.isNaN_of_coerce? (hBounds own hOwnCondition given hGiven) hBound
  exact Value.comparable_of_not_isNaN
    (hStored record hRecord condition hCondition column hColumn element hElement) hBoundNumber

/-- Comparable values match alike by keys and by values. -/
theorem Comparable.matches_iff {record : StoredRecord} {entry : Entry}
    (hComparable : store.Comparable conditions arguments)
    (hIndexes : slot.Indexes store.table store.records.toList index columns)
    (hRecord : record ∈ store.records.toList) :
    slot.Matches Value.keyOrder conditions arguments record entry ↔
      slot.Matches Value.order conditions arguments record entry := by
  rw [hIndexes.matches_iff hRecord, hIndexes.matches_iff hRecord]
  refine exists_congr fun values => and_congr_right fun hChooses => and_congr_left fun _ => ?_
  refine hIndexes.toKeyedBy.accepts_congr hChooses ?_
  intro part _ column hColumn element hElement own hOwn
  obtain ⟨hCondition, hField⟩ := List.mem_filter.mp (Condition.mem_of_mem_effective hOwn)
  have hSame : own.field = part.column := by simpa using hField
  have hBounds := hComparable record hRecord own hCondition column (hSame ▸ hColumn) element
    hElement own (hSame ▸ hOwn)
  unfold Condition.Accepts
  refine exists_congr fun comparison => exists_congr fun given => exists_congr fun bound =>
    and_congr_right fun _ => and_congr_right fun hGiven => and_congr_right fun hBound => ?_
  rw [(Value.keyOrder_eq_order_iff element bound).mpr (hBounds given bound hGiven hBound)]

variable {table : Table} {name : String} {steps : List Declaration} {predicate : Expr}
  {direction : Direction} {selection : Selection} {filter : Filter} {cursor : Cursor}

/-- The scan of a compiled conjunction ends without an error and answers the conditions by the order
of keys. It answers them by the order of values where the two tell stored values and bounds apart
alike, and generally exactly where each record has the same first match by both. -/
theorem answeredBy_of_compile (hDeclare : Table.declare name steps = .ok table)
    (hReachable : Reachable table store) (hPredicate : predicate.Conjoins conditions)
    (hCompile : table.compile predicate direction = .ok selection)
    (hBind : selection.plan.bind arguments = .ok filter)
    (hConverts : table.Converts conditions arguments) (hCursor : cursor.On store) :
    ∃ slot hits, store.slot selection.plan.shape.index = .ok slot ∧
      (filter.scan cursor).toEnd.items = hits.map (fun entry => .ok entry.bookmark) ∧
      (filter.scan cursor).toEnd.ended = true ∧
      store.AnsweredBy Value.keyOrder slot direction.isDescending conditions arguments hits ∧
      (store.Comparable conditions arguments →
        store.AnsweredBy Value.order slot direction.isDescending conditions arguments hits) ∧
      (store.AnsweredBy Value.order slot direction.isDescending conditions arguments hits ↔
        ∀ record ∈ store.records.toList, ∀ entry,
          slot.FirstMatch Value.keyOrder direction.isDescending conditions arguments record entry ↔
            slot.FirstMatch Value.order direction.isDescending conditions arguments record
              entry) := by
  obtain ⟨rfl, hSlot⟩ := hCursor
  have hTable := Table.wellFormed_of_declare hDeclare
  have hInvariant := hReachable.invariant
  obtain ⟨index, hIndex⟩ := Plan.exists_answersBy hTable hPredicate hCompile hBind hConverts
  obtain ⟨slot, columns, hFound, hIndexes⟩ :=
    exists_indexes hTable hInvariant hIndex.declared hIndex.standard
  obtain ⟨interval, hEncoded, hContains⟩ := hIndex.interval slot columns hIndexes.toKeyedBy
  obtain ⟨hItems, hEnded⟩ := Filter.toEnd_scan (indexNames_nodup hTable hInvariant) hSlot
    (hIndex.selected ▸ hFound) hEncoded
  rw [hIndex.direction] at hItems
  obtain rfl : cursor.store.table = table := table_of_create hInvariant.shape
  have hOrdered := (OrderedIndex.path_pairwise.filter _).sublist
    (@Scan.kept_sublist (filter.scan cursor)
      (ValueRange.hits slot.index interval direction.isDescending))
  have hAnswered := (answeredBy_iff hIndexes hIndex.covered hOrdered).mpr fun entry =>
    Scan.mem_kept_iff rfl hIndex.distinct hIndexes fun other => hIndexes.mem_hits_iff hContains
  have hExact := hAnswered.other_iff Value.order hIndexes hIndex.covered
  refine ⟨slot, _, hIndex.planned ▸ hFound, hItems, hEnded, hAnswered, ?_, hExact⟩
  intro hComparable
  exact hExact.mpr fun record hRecord entry =>
    Slot.FirstMatch.congr fun other => hComparable.matches_iff hIndexes hRecord

/-- The key of a negative not-a-number value comes before those of all numbers, and so a scan for
readings up to one returns it, though among values it comes after them. -/
theorem answeredBy_of_compile_negative_nan :
    let one : Value := .float64 ⟨0x3ff0000000000000⟩
    let conditions : List Condition := [⟨"value", .compare .atMost, .literal one⟩]
    let table : Table :=
      { name := "readings"
        columns := [⟨"value", .float64, false, false, 0⟩]
        indices := [⟨"byValue", "readings", [⟨"value", .ascending⟩], false, .standard, 1⟩] }
    let plan : Plan := ⟨1, false, .range "byValue" none (some [.literal one]) false⟩
    let filter : Filter := ⟨.range "byValue" 1 none (some [one]) false, false⟩
    let operations : List StoreOperation :=
      [.insert [.float64 ⟨0x3fe0000000000000⟩], .insert [.float64 ⟨0xfff8000000000000⟩]]
    table.compile (.binary .atMost (.field "value") (.literal one)) .ascending = .ok ⟨plan, []⟩ ∧
      plan.bind [] = .ok filter ∧ ∃ first, create table = .ok first ∧
        (filter.scan ((operations.foldl apply first).cursor .byValues)).toEnd.items =
          [.ok ⟨[2, 128, 0, 0, 0, 0, 0, 0, 1]⟩, .ok ⟨[2, 128, 0, 0, 0, 0, 0, 0, 0]⟩] ∧
        ∃ slot hits, hits.map (fun entry => .ok entry.bookmark) =
            (filter.scan ((operations.foldl apply first).cursor .byValues)).toEnd.items ∧
          (operations.foldl apply first).AnsweredBy Value.keyOrder slot false conditions [] hits ∧
          ¬ (operations.foldl apply first).AnsweredBy Value.order slot false conditions [] hits := by
  intro one conditions table plan filter operations
  have hDeclare : Table.declare "readings"
      [.column "value" .float64, .index "byValue" ["value"]] = .ok table := rfl
  have hPredicate : Expr.Conjoins (.binary .atMost (.field "value") (.literal one)) conditions :=
    .fieldFirst "value" .atMost (.literal one)
  have hCompile : table.compile (.binary .atMost (.field "value") (.literal one)) .ascending =
      .ok ⟨plan, []⟩ := rfl
  have hBind : plan.bind [] = .ok filter := rfl
  have hColumn : table.column? "value" = some ⟨"value", .float64, false, false, 0⟩ := rfl
  have hConverts : table.Converts conditions [] := by
    intro condition hCondition column hFound own hOwn given hGiven
    obtain rfl := List.mem_singleton.mp hCondition
    obtain rfl := Option.some.inj (hColumn.symm.trans hFound)
    obtain rfl := List.mem_singleton.mp (show own ∈ conditions from hOwn)
    cases hGiven
    rfl
  obtain ⟨first, hCreate, hStored, hRead⟩ : ∃ first, create table = .ok first ∧
      (∀ record ∈ (operations.foldl apply first).records.toList,
        record.bookmark = ⟨[2, 128, 0, 0, 0, 0, 0, 0, 1]⟩ →
          record.row = [.float64 ⟨0xfff8000000000000⟩]) ∧
      (filter.scan ((operations.foldl apply first).cursor .byValues)).toEnd.items =
        [.ok ⟨[2, 128, 0, 0, 0, 0, 0, 0, 1]⟩, .ok ⟨[2, 128, 0, 0, 0, 0, 0, 0, 0]⟩] :=
    ⟨_, rfl, by decide +kernel, by decide +kernel⟩
  have hReachable := (Reachable.created hCreate).foldl operations
  obtain ⟨slot, hits, -, hItems, -, hAnswered, -, -⟩ := @answeredBy_of_compile _ _ _ _ _ _ _ _ _ _
    ((operations.foldl apply first).cursor .byValues) hDeclare hReachable hPredicate hCompile hBind
    hConverts (cursor_on _ .byValues)
  refine ⟨hCompile, hBind, first, hCreate, hRead, slot, hits, hItems.symm, hAnswered, ?_⟩
  intro hOrder
  rw [hItems] at hRead
  obtain ⟨entry, hEntry, hBookmark⟩ := List.mem_map.mp (hRead ▸ List.mem_cons_self)
  obtain ⟨record, hRecord, hOwner, hSatisfies⟩ :=
    (hOrder.records entry.bookmark).mp (List.mem_map_of_mem hEntry)
  obtain ⟨column, hFound, element, hElement, hOwn⟩ := hSatisfies _ List.mem_cons_self
  rw [table_of_create hReachable.invariant.shape] at hFound
  obtain rfl := Option.some.inj (hColumn.symm.trans hFound)
  rw [Except.ok.inj hBookmark] at hOwner
  rw [hStored record hRecord hOwner] at hElement
  obtain rfl := List.mem_singleton.mp hElement
  obtain ⟨comparison, given, bound, hKind, hGiven, hBound, hAccepts⟩ :=
    hOwn _ (List.mem_singleton_self _)
  cases hKind
  cases hGiven
  cases hBound
  exact absurd hAccepts (by decide)

end Store

end IndexedTable

import IndexedTable.Proofs.KeyOrder

/-! The keys that open and close a range of keys. The mark at the end of a range is never
complemented, so it must lie above every byte that can follow the values of the range: another
segment in either direction, or the rest of a text or binary value that was matched by its leading
part. -/

namespace IndexedTable

namespace KeyColumn

theorem directed_append (column : KeyColumn) (s t : List UInt8) :
    column.directed (s ++ t) = column.directed s ++ column.directed t := by
  unfold directed
  cases column.direction with
  | ascending => rfl
  | descending => exact List.map_append

/-- The first byte of a segment lies below the first byte of the mark that ends a range. -/
theorem segment_eq_cons {column : KeyColumn} {value : Value} (h : value.Fits column.type) :
    ∃ first rest, column.segment false value = first :: rest ∧ first < 0xff := by
  obtain ⟨s, hs⟩ := segment?_of_fits h false
  have hTag : ∃ tag rest, s = tag :: rest ∧ (tag = nullTag ∨ tag = valueTag) := by
    by_cases hNull : value = .null
    · subst value
      cases hs
      exact ⟨nullTag, [], rfl, .inl rfl⟩
    · obtain ⟨rest, rfl⟩ := segment?_eq_cons hs hNull
      exact ⟨valueTag, rest, rfl, .inr rfl⟩
  obtain ⟨tag, rest, rfl, hTag⟩ := hTag
  simp only [segment, hs, Option.getD_some, directed]
  cases column.direction with
  | ascending => exact ⟨tag, rest, rfl, by rcases hTag with rfl | rfl <;> decide⟩
  | descending => exact ⟨~~~tag, _, rfl, by rcases hTag with rfl | rfl <;> decide⟩

end KeyColumn

namespace KeyLayout

/-- What can follow an encoded list of values: nothing, or another segment. -/
def Continues (rest : List UInt8) : Prop :=
  rest = [] ∨ ∃ first others, rest = first :: others ∧ first < 0xff

theorem continues_bytes {layout : KeyLayout} {values : List Value} (h : layout.Fits values) :
    Continues (layout.bytes values) := by
  cases values with
  | nil => cases layout <;> exact .inl rfl
  | cons value values =>
      cases layout with
      | nil => exact h.elim
      | cons column columns =>
          obtain ⟨first, rest, hSegment, hFirst⟩ := KeyColumn.segment_eq_cons h.1
          exact .inr ⟨first, rest ++ bytes columns values, by simp [bytes, hSegment], hFirst⟩

theorem compare_cons_rangeEndMark {first : UInt8} (h : first < 0xff) (rest : List UInt8) :
    compare (first :: rest) rangeEndMark = .lt := by
  rw [rangeEndMark, List.compare_cons_cons, Std.compare_eq_lt.mpr h]
  rfl

theorem compare_rangeEndMark {rest : List UInt8} (h : Continues rest) :
    compare rest rangeEndMark = .lt := by
  rcases h with rfl | ⟨first, others, rfl, hFirst⟩
  · rfl
  · exact compare_cons_rangeEndMark hFirst others

/-- The mark is longer than the longest run of its byte at the start of what follows a value. -/
theorem compare_full_rangeEndMark {second : UInt8} (h : second < 0xff) (rest : List UInt8) :
    compare (0xff :: second :: rest) rangeEndMark = .lt := by
  have hTail : compare (second :: rest) [0xff, 0xff] = .lt := by
    rw [List.compare_cons_cons, Std.compare_eq_lt.mpr h]
    rfl
  exact (compare_append_left [0xff] (second :: rest) [0xff, 0xff]).trans hTail

theorem fits_append {layout : KeyLayout} {front back : List Value} :
    layout.Fits (front ++ back) ↔ layout.Fits front ∧ Fits (layout.drop front.length) back := by
  induction front generalizing layout with
  | nil => cases layout <;> simp [Fits]
  | cons value front ih =>
      cases layout with
      | nil => simp [Fits]
      | cons column columns => simp [Fits, ih, and_assoc]

/-- The key of a list against that of fewer values: their own order decides, and where they agree,
what the longer list goes on with. -/
theorem compare_bytes_append {layout : KeyLayout} {front back us : List Value}
    (hFits : layout.Fits (front ++ back)) (hus : layout.Fits us)
    (hLength : front.length = us.length) (mark : List UInt8) :
    compare (layout.bytes (front ++ back)) (layout.bytes us ++ mark) =
      (layout.keyOrder front us).then
        (compare (bytes (layout.drop front.length) back) mark) := by
  obtain ⟨hFront, -⟩ := fits_append.mp hFits
  rw [bytes_append back (length_le_of_fits hFront)]
  exact compare_append_of_settled (settled?_bytes hFront hus hLength) _ _

theorem compare_bytes_nil (rest : List UInt8) : compare rest [] ≠ .lt := by
  cases rest with
  | nil => simp
  | cons first rest => simp [List.compare_cons_nil]

/-- A key lies before the start of a range exactly when its values do. -/
theorem lt_rangeStart_iff {layout : KeyLayout} {front back us : List Value}
    (hFits : layout.Fits (front ++ back)) (hus : layout.Fits us)
    (hLength : front.length = us.length) :
    compare (layout.bytes (front ++ back)) (layout.bytes us) = .lt ↔
      layout.keyOrder front us = .lt := by
  have h := compare_bytes_append hFits hus hLength []
  have hRest := compare_bytes_nil (bytes (layout.drop front.length) back)
  rw [List.append_nil] at h
  rw [h]
  cases layout.keyOrder front us <;> simp [hRest]

/-- A key lies after the end of a range exactly when its values do: the mark is above whatever
follows them. -/
theorem gt_rangeEnd_iff {layout : KeyLayout} {front back us : List Value}
    (hFits : layout.Fits (front ++ back)) (hus : layout.Fits us)
    (hLength : front.length = us.length) :
    compare (layout.bytes (front ++ back)) (layout.bytes us ++ rangeEndMark) = .gt ↔
      layout.keyOrder front us = .gt := by
  have hRest := compare_rangeEndMark (continues_bytes (fits_append.mp hFits).2)
  rw [compare_bytes_append hFits hus hLength, hRest]
  cases layout.keyOrder front us <;> simp

end KeyLayout

/-- The bytes of a text or binary value. -/
def Value.content? : Value → Option (List UInt8)
  | .text s => some (utf8 s)
  | .bytes b => some b
  | _ => none

theorem Value.eq_null_of_content? {type : DataType} {value : Value} (hFits : value.Fits type)
    (hType : type.supportsPartialMatch = true) (h : value.content? = none) : value = .null := by
  rcases hFits with rfl | hDataType
  · rfl
  · cases value with
    | text _ | bytes _ => cases h
    | null | list _ => cases hDataType
    | _ =>
        cases hDataType
        cases hType

theorem Value.exists_content {type : DataType} {value : Value}
    (hType : type.supportsPartialMatch = true) (hCoerce : value.coerce? type = some value)
    (hNotNull : value ≠ .null) : ∃ content, value.content? = some content := by
  cases hContent : value.content? with
  | none =>
      exact absurd (eq_null_of_content? (fits_of_coerce? hCoerce) hType hContent) hNotNull
  | some content => exact ⟨content, rfl⟩

namespace KeyColumn

theorem segment_of_content (column : KeyColumn) {value : Value} {content : List UInt8}
    (h : value.content? = some content) (isOpen : Bool) :
    column.segment isOpen value =
      column.directed (valueTag :: escape content ++ if isOpen then [] else terminator) := by
  cases value <;> cases h <;> rfl

/-- A value that does not begin with the other one is told apart from it by one of its codes, or by
its terminator, before the other one ends. -/
theorem settled?_escape_of_not_isPrefix {needle content : List UInt8} (h : ¬ needle <+: content) :
    ∃ o, o ≠ .eq ∧ settled? (escape content ++ terminator) (escape needle) = some o := by
  induction needle generalizing content with
  | nil => exact absurd List.nil_prefix h
  | cons x needle ih =>
      cases content with
      | nil =>
          refine ⟨.lt, by decide, ?_⟩
          rw [escape_cons]
          exact settled?_terminator_escapeByte x [] (escape needle)
      | cons y content =>
          rw [escape_cons, escape_cons, List.append_assoc]
          by_cases hxy : y = x
          · subst y
            rw [settled?_append_left]
            exact ih fun hPrefix => h ((List.prefix_cons_inj x).mpr hPrefix)
          · refine ⟨compare y x, ?_, settled?_escapeByte_of_ne hxy _ _⟩
            exact fun hEq => hxy (Std.LawfulEqCmp.eq_of_compare hEq)

/-- The code of a byte, in either direction, lies below the mark whatever follows it. -/
theorem compare_escapeByte_rangeEndMark (column : KeyColumn) (b : UInt8) (rest : List UInt8) :
    compare (column.directed (escapeByte b) ++ rest) KeyLayout.rangeEndMark = .lt := by
  by_cases hZero : b = 0x00
  · subst b
    unfold directed
    cases column.direction with
    | ascending => exact KeyLayout.compare_cons_rangeEndMark (by decide) _
    | descending => exact KeyLayout.compare_full_rangeEndMark (by decide) _
  · by_cases hFull : b = 0xff
    · subst b
      unfold directed
      cases column.direction with
      | ascending => exact KeyLayout.compare_full_rangeEndMark (by decide) _
      | descending => exact KeyLayout.compare_cons_rangeEndMark (by decide) _
    · have hCode : escapeByte b = [b] := by simp [escapeByte, hZero, hFull]
      rw [hCode]
      unfold directed
      have hb := b.toNat_lt
      have hNotZero : b.toNat ≠ 0 := fun h => hZero (UInt8.toNat_inj.mp h)
      have hNotFull : b.toNat ≠ 255 := fun h => hFull (UInt8.toNat_inj.mp h)
      cases column.direction with
      | ascending =>
          refine KeyLayout.compare_cons_rangeEndMark ?_ _
          rw [UInt8.lt_iff_toNat_lt]
          exact Nat.lt_of_le_of_ne (Nat.le_of_lt_succ hb) hNotFull
      | descending =>
          refine KeyLayout.compare_cons_rangeEndMark ?_ _
          rw [UInt8.lt_iff_toNat_lt, UInt8.toNat_not]
          exact Nat.sub_lt_self (Nat.pos_of_ne_zero hNotZero) (Nat.le_of_lt_succ hb)

/-- What is left of a text or binary value after its leading part, and all that follows, lies below
the mark, also where a descending column turns the terminator into two of its bytes. -/
theorem compare_tail_rangeEndMark (column : KeyColumn) (more : List UInt8) {rest : List UInt8}
    (h : KeyLayout.Continues rest) :
    compare (column.directed (escape more ++ terminator) ++ rest) KeyLayout.rangeEndMark = .lt := by
  cases more with
  | nil =>
      unfold directed
      cases column.direction with
      | ascending => exact KeyLayout.compare_cons_rangeEndMark (by decide) _
      | descending =>
          have hRest : compare rest [0xff] = .lt := by
            rcases h with rfl | ⟨first, others, rfl, hFirst⟩
            · rfl
            · rw [List.compare_cons_cons, Std.compare_eq_lt.mpr hFirst]
              rfl
          exact (compare_append_left [0xff, 0xff] rest [0xff]).trans hRest
  | cons b more =>
      rw [escape_cons, List.append_assoc, directed_append, List.append_assoc]
      exact compare_escapeByte_rangeEndMark column b _

/-- A value lies between the two keys made from the leading part of one exactly when it is a text
or binary value that begins with it. -/
theorem segment_between_iff {column : KeyColumn} {u v : Value} {needle rest : List UInt8}
    (hu : u.content? = some needle) (hv : v.Fits column.type)
    (hType : column.type.supportsPartialMatch = true) (hRest : KeyLayout.Continues rest) :
    (compare (column.segment false v ++ rest) (column.segment true u) ≠ .lt ∧
        compare (column.segment false v ++ rest)
          (column.segment true u ++ KeyLayout.rangeEndMark) ≠ .gt) ↔
      ∃ content, v.content? = some content ∧ needle <+: content := by
  -- Where the value does not begin with the part, both comparisons are settled within the part.
  have hApart {o : Ordering} (hNe : o ≠ .eq)
      (h : settled? (column.segment false v) (column.segment true u) = some o) :
      ¬ (compare (column.segment false v ++ rest) (column.segment true u) ≠ .lt ∧
        compare (column.segment false v ++ rest)
          (column.segment true u ++ KeyLayout.rangeEndMark) ≠ .gt) := by
    have hLow := compare_append_of_settled h rest []
    have hHigh := compare_append_of_settled h rest KeyLayout.rangeEndMark
    rw [List.append_nil] at hLow
    rw [hLow, hHigh]
    cases o <;> simp_all
  have hPart := column.segment_of_content hu true
  cases hContent : v.content? with
  | none =>
      obtain rfl := Value.eq_null_of_content? hv hType hContent
      have hNull : settled? (column.segment false .null) (column.segment true u) =
          some (column.direction.apply .lt) := by
        rw [hPart, segment, settled?_directed]
        rfl
      have hNe : column.direction.apply .lt ≠ .eq := by cases column.direction <;> decide
      simpa using hApart hNe hNull
  | some content =>
      have hValue := column.segment_of_content hContent false
      by_cases hPrefix : needle <+: content
      · obtain ⟨more, rfl⟩ := hPrefix
        have hSplit : column.segment false v = column.segment true u ++
            column.directed (escape more ++ terminator) := by
          rw [hValue, hPart, ← directed_append, escape_append]
          simp
        have hLow := compare_append_left (column.segment true u)
          (column.directed (escape more ++ terminator) ++ rest) []
        have hHigh := compare_append_left (column.segment true u)
          (column.directed (escape more ++ terminator) ++ rest) KeyLayout.rangeEndMark
        rw [List.append_nil] at hLow
        rw [hSplit, List.append_assoc, hLow, hHigh, compare_tail_rangeEndMark column more hRest]
        simp [KeyLayout.compare_bytes_nil]
      · obtain ⟨o, hNe, hSettled⟩ := settled?_escape_of_not_isPrefix hPrefix
        have hTold : settled? (column.segment false v) (column.segment true u) =
            some (column.direction.apply o) := by
          rw [hValue, hPart, settled?_directed]
          simp [hSettled]
        have hNe' : column.direction.apply o ≠ .eq := mt (Direction.apply_eq_eq_iff _ _).mp hNe
        simpa [hPrefix] using hApart hNe' hTold

end KeyColumn

namespace Key

theorem le_iff_not_gt {a b : Key} : a ≤ b ↔ compare a b ≠ .gt :=
  Ordering.isLE_iff_ne_gt

theorem le_iff_not_lt {a b : Key} : a ≤ b ↔ compare b a ≠ .lt := by
  have hSwap : compare b a = (compare a b).swap := Std.OrientedCmp.eq_swap
  rw [le_iff_not_gt, hSwap]
  cases compare a b <;> simp

theorem lt_iff_gt {a b : Key} : a < b ↔ compare b a = .gt :=
  Std.OrientedCmp.gt_iff_lt.symm

end Key

namespace KeyLayout

/-- The keys between the two that are made from values and the leading part of one more are those
of lists with equal values and, after them, a text or binary value that begins with the part. -/
theorem between_open_iff {layout : KeyLayout} {front back us : List Value} {u v : Value}
    {column : KeyColumn} {needle : List UInt8} (hFits : layout.Fits (front ++ v :: back))
    (hus : layout.Fits us) (hLength : front.length = us.length)
    (hColumn : layout[us.length]? = some column)
    (hType : column.type.supportsPartialMatch = true) (hu : u.content? = some needle) :
    (compare (layout.bytes (front ++ v :: back)) (layout.bytes us ++ column.segment true u) ≠ .lt ∧
        compare (layout.bytes (front ++ v :: back))
          (layout.bytes us ++ (column.segment true u ++ rangeEndMark)) ≠ .gt) ↔
      layout.keyOrder front us = .eq ∧
        ∃ content, v.content? = some content ∧ needle <+: content := by
  obtain ⟨hInside, hGet⟩ := List.getElem?_eq_some_iff.mp hColumn
  have hDrop : layout.drop front.length = column :: layout.drop (us.length + 1) := by
    rw [hLength, List.drop_eq_getElem_cons hInside, hGet]
  have hTail := (fits_append.mp hFits).2
  rw [hDrop] at hTail
  have hSegment := KeyColumn.segment_between_iff hu hTail.1 hType (continues_bytes hTail.2)
  rw [compare_bytes_append hFits hus hLength, compare_bytes_append hFits hus hLength, hDrop, bytes]
  cases layout.keyOrder front us <;> simp [hSegment]

/-- The limits of a range around the key of a longer list. -/
theorem range_limits {layout : KeyLayout} {front back us : List Value}
    (hFits : layout.Fits (front ++ back)) (hus : layout.Fits us)
    (hLength : front.length = us.length) (hComparable : ComparableItems front us) :
    let key := Key.mk (layout.bytes (front ++ back))
    let start := Key.mk (layout.bytes us)
    let stop := Key.mk (layout.bytes us ++ rangeEndMark)
    (key < start ↔ layout.order front us = .lt) ∧ (stop < key ↔ layout.order front us = .gt) ∧
      (start ≤ key ∧ key ≤ stop ↔ Value.equalItems front us = true) := by
  have hLess := lt_rangeStart_iff hFits hus hLength
  have hMore := gt_rangeEnd_iff hFits hus hLength
  rw [keyOrder_eq_order hComparable] at hLess hMore
  intro key start stop
  refine ⟨hLess, Key.lt_iff_gt.trans hMore, ?_⟩
  rw [Key.le_iff_not_lt, Key.le_iff_not_gt, Key.compare_mk, Key.compare_mk, Ne, hLess, Ne, hMore,
    ← order_eq_iff_equalItems (fits_append.mp hFits).1 hus hLength]
  cases layout.order front us <;> simp

/-- The limits made from the leading part of a text or binary value around the key of a longer
list. -/
theorem open_limits {layout : KeyLayout} {front back us : List Value} {u v : Value}
    {column : KeyColumn} {needle : List UInt8} (hFits : layout.Fits (front ++ v :: back))
    (hus : layout.Fits us) (hLength : front.length = us.length)
    (hComparable : ComparableItems front us) (hColumn : layout[us.length]? = some column)
    (hType : column.type.supportsPartialMatch = true) (hu : u.content? = some needle) :
    let key := Key.mk (layout.bytes (front ++ v :: back))
    let start := Key.mk (layout.bytes us ++ column.segment true u)
    let stop := Key.mk (layout.bytes us ++ column.segment true u ++ rangeEndMark)
    start ≤ key ∧ key ≤ stop ↔
      Value.equalItems front us = true ∧
        ∃ content, v.content? = some content ∧ needle <+: content := by
  intro key start stop
  rw [Key.le_iff_not_lt, Key.le_iff_not_gt, Key.compare_mk, Key.compare_mk, List.append_assoc,
    between_open_iff hFits hus hLength hColumn hType hu, keyOrder_eq_order hComparable,
    order_eq_iff_equalItems (fits_append.mp hFits).1 hus hLength]

/-- The limits of a range, as keys are made, around the key of a full value list. -/
theorem makeKey_range_limits {layout : KeyLayout} {p us vs : List Value}
    (hus : layout.coerce? p = some us) (hFits : layout.Fits vs) (hFull : vs.length = layout.width)
    (hComparable : ComparableItems (vs.take p.length) us) :
    let key := Key.mk (layout.bytes vs)
    ∃ start stop, layout.makeKey p .rangeStart = .ok start ∧
      layout.makeKey p .rangeEnd = .ok stop ∧
      (key < start ↔ layout.order (vs.take p.length) us = .lt) ∧
      (stop < key ↔ layout.order (vs.take p.length) us = .gt) ∧
      (start ≤ key ∧ key ≤ stop ↔ Value.equalItems (vs.take p.length) us = true) := by
  obtain ⟨huFits, huLength⟩ := fits_of_coerce? hus
  have hShort := length_le_of_fits huFits
  have hTake : (vs.take p.length).length = us.length := by
    rw [List.length_take]
    omega
  have hSplit := (List.take_append_drop p.length vs).symm
  have hLimits := range_limits (hSplit ▸ hFits) huFits hTake hComparable
  refine ⟨_, _, (makeKey_eq_ok_iff rfl).mpr ⟨us, hus, rfl⟩,
    (makeKey_eq_ok_iff rfl).mpr ⟨us, hus, rfl⟩, ?_⟩
  simpa [limitMark, KeyLimit.isEnd] using hLimits

/-- The limits of a leading part, as keys are made, around the key of a full value list. -/
theorem makeKey_partial_limits {layout : KeyLayout} {init as vs : List Value} {last w : Value}
    {column : KeyColumn} {needle : List UInt8} (has : layout.coerce? init = some as)
    (hColumn : layout[init.length]? = some column)
    (hType : column.type.supportsPartialMatch = true)
    (hLast : last.coerce? column.type = some last) (hNeedle : last.content? = some needle)
    (hFits : layout.Fits vs) (hAt : vs[init.length]? = some w)
    (hComparable : ComparableItems (vs.take init.length) as) :
    let key := Key.mk (layout.bytes vs)
    ∃ start stop, layout.makeKey (init ++ [last]) .partialStart = .ok start ∧
      layout.makeKey (init ++ [last]) .partialEnd = .ok stop ∧
      (start ≤ key ∧ key ≤ stop ↔ Value.equalItems (vs.take init.length) as = true ∧
        ∃ content, w.content? = some content ∧ needle <+: content) := by
  obtain ⟨hasFits, hasLength⟩ := fits_of_coerce? has
  obtain ⟨hInside, hGet⟩ := List.getElem?_eq_some_iff.mp hAt
  have hSplit : vs = vs.take init.length ++ w :: vs.drop (init.length + 1) := by
    rw [← hGet, List.getElem_cons_drop hInside, List.take_append_drop]
  have hTake : (vs.take init.length).length = as.length := by
    rw [List.length_take, hasLength]
    exact Nat.min_eq_left (Nat.le_of_lt hInside)
  have hLimits := open_limits (hSplit ▸ hFits) hasFits hTake hComparable (hasLength ▸ hColumn) hType
    hNeedle
  rw [← hSplit] at hLimits
  refine ⟨_, _,
    (makeKey_open_eq_ok_iff rfl).mpr ⟨column, as, last, hColumn, hType, has, hLast, rfl⟩,
    (makeKey_open_eq_ok_iff rfl).mpr ⟨column, as, last, hColumn, hType, has, hLast, rfl⟩, ?_⟩
  simpa [limitMark, KeyLimit.isEnd] using hLimits

/-- The keys of a range lie between its limits, which hold exactly the keys whose leading values
are those of the range; the limits made from the leading part of a text or binary value hold
exactly the keys with a value that begins with it. -/
theorem makeKey_limits_bracket {layout : KeyLayout} {p v : List Value} {own key : Key}
    (hFull : v.length = layout.width) (hKey : layout.makeKey v .exact = .ok key)
    (hOwn : layout.makeKey p .exact = .ok own)
    (hp : ∀ x ∈ p, x.isNaN = false) (hv : ∀ x ∈ v, x.isNaN = false) :
    ∃ us vs, layout.coerce? p = some us ∧ layout.coerce? v = some vs ∧
      (∃ start stop, layout.makeKey p .rangeStart = .ok start ∧
        layout.makeKey p .rangeEnd = .ok stop ∧
        (key < start ↔ layout.order (vs.take p.length) us = .lt) ∧
        (stop < key ↔ layout.order (vs.take p.length) us = .gt) ∧
        (start ≤ key ∧ key ≤ stop ↔ Value.equalItems (vs.take p.length) us = true)) ∧
      ∀ init last column, p = init ++ [last] → layout[init.length]? = some column →
        column.type = .text ∨ column.type = .bytes → last ≠ .null →
        ∃ start stop, layout.makeKey p .partialStart = .ok start ∧
          layout.makeKey p .partialEnd = .ok stop ∧
          (start ≤ key ∧ key ≤ stop ↔
            Value.equalItems (vs.take init.length) (us.take init.length) = true ∧
              ∃ value needle content, v[init.length]? = some value ∧
                last.content? = some needle ∧ value.content? = some content ∧
                needle <+: content) := by
  obtain ⟨us, hus, rfl⟩ := (makeKey_eq_ok_iff rfl).mp hOwn
  obtain ⟨vs, hvs, rfl⟩ := (makeKey_eq_ok_iff rfl).mp hKey
  obtain ⟨hvFits, hvLength⟩ := fits_of_coerce? hvs
  have hvNumbers := isNaN_of_coerce? hvs hv
  have hTakeNumbers (count : Nat) : ∀ x ∈ vs.take count, x.isNaN = false :=
    fun x hx => hvNumbers x (List.mem_of_mem_take hx)
  have hComparable := comparableItems_of_not_isNaN (hTakeNumbers p.length) (isNaN_of_coerce? hus hp)
  simp only [limitMark, KeyLimit.isEnd, Bool.false_eq_true, ↓reduceIte, List.append_nil]
  refine ⟨us, vs, hus, hvs, makeKey_range_limits hus hvFits (hvLength.trans hFull) hComparable, ?_⟩
  rintro init last column rfl hColumn hType hLast
  have hPartial : column.type.supportsPartialMatch = true := by
    rcases hType with hType | hType <;> rw [hType] <;> rfl
  obtain ⟨hInside, -⟩ := List.getElem?_eq_some_iff.mp hColumn
  obtain ⟨as, bs, has, hbs, rfl⟩ := coerce?_append_eq_some.mp hus
  -- Neither the last value nor the one at its place in the longer list is converted.
  obtain ⟨u, -, huLast⟩ := getElem?_coerce? hus hColumn (List.getElem?_concat_length)
  obtain rfl := Value.eq_of_coerce? hPartial huLast
  obtain ⟨value, hAt⟩ : ∃ value, v[init.length]? = some value :=
    ⟨_, List.getElem?_eq_getElem (hFull ▸ hInside)⟩
  obtain ⟨w, hw, hwValue⟩ := getElem?_coerce? hvs hColumn hAt
  obtain rfl := Value.eq_of_coerce? hPartial hwValue
  obtain ⟨needle, hNeedle⟩ := Value.exists_content hPartial huLast hLast
  have hInit := comparableItems_of_not_isNaN (hTakeNumbers init.length)
    (isNaN_of_coerce? has fun x hx => hp x (List.mem_append_left _ hx))
  obtain ⟨start, stop, hStart, hStop, hLimits⟩ :=
    makeKey_partial_limits has hColumn hPartial huLast hNeedle hvFits hw hInit
  refine ⟨start, stop, hStart, hStop, ?_⟩
  have hTakeInit : (as ++ bs).take init.length = as := by
    rw [← (fits_of_coerce? has).2, List.take_left]
  rw [hLimits, hTakeInit]
  simp [hAt, hNeedle]

/-- The limits of a range around a binary value that goes on with the bytes of the mark, in a
descending column before another one. -/
theorem makeKey_limits_bracket_of_descending_bytes :
    let layout : KeyLayout := [⟨.bytes, .descending⟩, ⟨.int64, .descending⟩]
    let p := [Value.bytes [0x00]]
    let v := [Value.bytes [0x00, 0x00, 0xff], .int32 3]
    ∃ own key, v.length = layout.width ∧ layout.makeKey v .exact = .ok key ∧
      layout.makeKey p .exact = .ok own ∧
      ∃ us vs, layout.coerce? p = some us ∧ layout.coerce? v = some vs ∧
        (∃ start stop, layout.makeKey p .rangeStart = .ok start ∧
          layout.makeKey p .rangeEnd = .ok stop ∧
          (key < start ↔ layout.order (vs.take p.length) us = .lt) ∧
          (stop < key ↔ layout.order (vs.take p.length) us = .gt) ∧
          (start ≤ key ∧ key ≤ stop ↔ Value.equalItems (vs.take p.length) us = true)) ∧
        ∀ init last column, p = init ++ [last] → layout[init.length]? = some column →
          column.type = .text ∨ column.type = .bytes → last ≠ .null →
          ∃ start stop, layout.makeKey p .partialStart = .ok start ∧
            layout.makeKey p .partialEnd = .ok stop ∧
            (start ≤ key ∧ key ≤ stop ↔
              Value.equalItems (vs.take init.length) (us.take init.length) = true ∧
                ∃ value needle content, v[init.length]? = some value ∧
                  last.content? = some needle ∧ value.content? = some content ∧
                  needle <+: content) :=
  ⟨_, _, rfl, rfl, rfl, makeKey_limits_bracket rfl rfl rfl (by decide) (by decide)⟩

end KeyLayout

end IndexedTable

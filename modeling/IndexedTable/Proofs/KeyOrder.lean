import IndexedTable.Proofs.KeyEncoding
import IndexedTable.Proofs.SegmentOrder

/-! The order of keys is the order of the value lists they encode. Each segment settles its order
before it ends, so the order of the lists, each column in its own direction, survives the
concatenation. -/

namespace IndexedTable

theorem Key.compare_mk (a b : List UInt8) : compare (Key.mk a) (Key.mk b) = compare a b := rfl

namespace KeyColumn

theorem settled?_directed (column : KeyColumn) (s t : List UInt8) :
    settled? (column.directed s) (column.directed t) =
      (settled? s t).map column.direction.apply := by
  unfold directed
  cases column.direction with
  | ascending => cases settled? s t <;> rfl
  | descending => exact settled?_complement s t

theorem settled?_segments {column : KeyColumn} {a b : Value} (ha : a.Fits column.type)
    (hb : b.Fits column.type) :
    settled? (column.segment false a) (column.segment false b) =
      some (column.direction.apply (a.keyOrder b)) := by
  obtain ⟨s, hs⟩ := segment?_of_fits ha false
  obtain ⟨t, ht⟩ := segment?_of_fits hb false
  simp only [segment, hs, ht, Option.getD_some, settled?_directed,
    settled?_segment ha hb hs ht, Option.map_some]

end KeyColumn

theorem Direction.apply_eq_eq_iff (direction : Direction) (o : Ordering) :
    direction.apply o = .eq ↔ o = .eq := by
  cases direction <;> cases o <;> simp [apply]

theorem Binary64.order_eq_iff_equal (x y : Binary64) : x.order y = .eq ↔ x.equal y = true := by
  unfold order equal
  cases x.isNaN <;> cases y.isNaN <;> simp

namespace Value

theorem utf8_inj {s t : String} : utf8 s = utf8 t ↔ s = t := by
  rw [← String.toByteArray_inj]
  constructor
  · intro h
    exact ByteArray.ext (Array.toList_inj.mp h)
  · intro h
    rw [utf8, h, utf8]

/-- Within one column, values are equal exactly when neither comes before the other. -/
theorem order_eq_iff_equal {type : DataType} {a b : Value} (ha : a.Fits type) (hb : b.Fits type) :
    a.order b = .eq ↔ a.equal b = true := by
  rcases ha with rfl | ha
  · cases b <;> simp [order, equal, rank]
  · rcases hb with rfl | hb
    · cases a <;> simp [order, equal, rank]
    · rw [← hb] at ha
      cases a with
      | null | list _ => cases b <;> simp [dataType?] at ha hb
      | boolean x =>
          cases b <;> cases ha
          simp [order, equal]
      | int32 m =>
          cases b <;> cases ha
          simp [order, equal, Int32.toInt_inj]
      | int64 m =>
          cases b <;> cases ha
          simp [order, equal, Int64.toInt_inj]
      | dateTime m =>
          cases b <;> cases ha
          simp [order, equal, Int64.toInt_inj]
      | float64 x =>
          cases b <;> cases ha
          exact Binary64.order_eq_iff_equal _ _
      | text x =>
          cases b <;> cases ha
          simp [order, equal, utf8_inj]
      | bytes x =>
          cases b <;> cases ha
          simp [order, equal]

end Value

namespace KeyLayout

/-- Value lists compared item by item, each column in its own direction. -/
def lexicographic (compareValues : Value → Value → Ordering) :
    KeyLayout → List Value → List Value → Ordering
  | column :: columns, a :: as, b :: bs =>
    (column.direction.apply (compareValues a b)).then (lexicographic compareValues columns as bs)
  | _, _, _ => .eq

/-- The lexicographic order of value lists. -/
def order (layout : KeyLayout) : List Value → List Value → Ordering :=
  layout.lexicographic Value.order

/-- The lexicographic order of value lists by their keys. -/
def keyOrder (layout : KeyLayout) : List Value → List Value → Ordering :=
  layout.lexicographic Value.keyOrder

/-- Whether the values compare like their keys, item by item. -/
def ComparableItems : List Value → List Value → Prop
  | a :: as, b :: bs => a.Comparable b ∧ ComparableItems as bs
  | _, _ => True

theorem keyOrder_eq_order {layout : KeyLayout} {as bs : List Value}
    (hComparable : ComparableItems as bs) : layout.keyOrder as bs = layout.order as bs := by
  unfold keyOrder order
  induction as generalizing layout bs with
  | nil => cases layout <;> rfl
  | cons a as ih =>
      cases bs with
      | nil => cases layout <;> rfl
      | cons b bs =>
          cases layout with
          | nil => rfl
          | cons column columns =>
              rw [lexicographic, lexicographic, (Value.keyOrder_eq_order_iff a b).mpr hComparable.1,
                ih hComparable.2]

/-- The order of two encoded lists is that of their values, and settled before they end. -/
theorem settled?_bytes {layout : KeyLayout} {as bs : List Value} (ha : layout.Fits as)
    (hb : layout.Fits bs) (hLength : as.length = bs.length) :
    settled? (layout.bytes as) (layout.bytes bs) = some (layout.keyOrder as bs) := by
  unfold keyOrder
  induction as generalizing layout bs with
  | nil =>
      obtain rfl : bs = [] := List.length_eq_zero_iff.mp hLength.symm
      cases layout <;> rfl
  | cons a as ih =>
      cases bs with
      | nil => cases hLength
      | cons b bs =>
          cases layout with
          | nil => exact ha.elim
          | cons column columns =>
              have hHead := KeyColumn.settled?_segments ha.1 hb.1
              have hTail := ih ha.2 hb.2 (Nat.succ.inj hLength)
              simp only [bytes, lexicographic, settled?_append hHead, hTail]
              cases column.direction.apply (a.keyOrder b) <;> rfl

theorem order_eq_iff_equalItems {layout : KeyLayout} {as bs : List Value} (ha : layout.Fits as)
    (hb : layout.Fits bs) (hLength : as.length = bs.length) :
    layout.order as bs = .eq ↔ Value.equalItems as bs = true := by
  unfold order
  induction as generalizing layout bs with
  | nil =>
      obtain rfl : bs = [] := List.length_eq_zero_iff.mp hLength.symm
      cases layout <;> simp [lexicographic, Value.equalItems]
  | cons a as ih =>
      cases bs with
      | nil => cases hLength
      | cons b bs =>
          cases layout with
          | nil => exact ha.elim
          | cons column columns =>
              have hHead := Value.order_eq_iff_equal ha.1 hb.1
              have hTail := ih ha.2 hb.2 (Nat.succ.inj hLength)
              rw [lexicographic, Ordering.then_eq_eq, Direction.apply_eq_eq_iff, hHead, hTail,
                Value.equalItems, Bool.and_eq_true]

theorem comparableItems_of_not_isNaN {as bs : List Value} (ha : ∀ a ∈ as, a.isNaN = false)
    (hb : ∀ b ∈ bs, b.isNaN = false) : ComparableItems as bs := by
  induction as generalizing bs with
  | nil => trivial
  | cons a as ih =>
      cases bs with
      | nil => trivial
      | cons b bs =>
          have hHead := Value.comparable_of_not_isNaN (ha a List.mem_cons_self)
            (hb b List.mem_cons_self)
          exact ⟨hHead, ih (fun x hx => ha x (List.mem_cons_of_mem a hx))
            (fun y hy => hb y (List.mem_cons_of_mem b hy))⟩

/-- Keys of value lists of one length compare as the converted values do, column by column and each
column in its direction; two keys are the same exactly when the values are equal. -/
theorem compare_makeKey {layout : KeyLayout} {xs ys : List Value} {k l : Key}
    (hLength : xs.length = ys.length) (hk : layout.makeKey xs .exact = .ok k)
    (hl : layout.makeKey ys .exact = .ok l) (hxs : ∀ x ∈ xs, x.isNaN = false)
    (hys : ∀ y ∈ ys, y.isNaN = false) :
    ∃ as bs, layout.coerce? xs = some as ∧ layout.coerce? ys = some bs ∧
      compare k l = layout.order as bs ∧ (k = l ↔ Value.equalItems as bs = true) := by
  obtain ⟨as, ha, rfl⟩ := (makeKey_eq_ok_iff rfl).mp hk
  obtain ⟨bs, hb, rfl⟩ := (makeKey_eq_ok_iff rfl).mp hl
  obtain ⟨haFits, haLength⟩ := fits_of_coerce? ha
  obtain ⟨hbFits, hbLength⟩ := fits_of_coerce? hb
  have hSame : as.length = bs.length := by omega
  have hSettled := settled?_bytes haFits hbFits hSame
  rw [keyOrder_eq_order
    (comparableItems_of_not_isNaN (isNaN_of_coerce? ha hxs) (isNaN_of_coerce? hb hys))] at hSettled
  have hCompare : compare (Key.mk (layout.bytes as ++ limitMark .exact))
      (Key.mk (layout.bytes bs ++ limitMark .exact)) = layout.order as bs := by
    simpa [limitMark, KeyLimit.isEnd, Key.compare_mk] using compare_of_settled hSettled
  refine ⟨as, bs, ha, hb, hCompare, ?_⟩
  rw [← order_eq_iff_equalItems haFits hbFits hSame, ← hCompare, Std.LawfulEqCmp.compare_eq_iff_eq]

/-- A text that begins another one comes after it in a descending column, also where the longer
one goes on with a zero byte and the next column would say otherwise. -/
theorem compare_makeKey_of_descending_prefix :
    let layout : KeyLayout := [⟨.text, .descending⟩, ⟨.int64, .ascending⟩]
    let xs := [Value.text "a", .int32 7]
    let ys := [Value.text "a\x00", .int32 (-7)]
    ∃ k l, layout.makeKey xs .exact = .ok k ∧ layout.makeKey ys .exact = .ok l ∧
      ∃ as bs, layout.coerce? xs = some as ∧ layout.coerce? ys = some bs ∧
        compare k l = layout.order as bs ∧ (k = l ↔ Value.equalItems as bs = true) :=
  ⟨_, _, rfl, rfl, compare_makeKey rfl rfl rfl (by decide) (by decide)⟩

end KeyLayout

end IndexedTable

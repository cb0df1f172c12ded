import IndexedTable.Proofs.ByteOrder
import IndexedTable.Proofs.Coercion
import IndexedTable.Value.Order

/-! The segments of two values that one column can hold are in a settled order, and it is the order
of the values. Numbers settle theirs within a fixed width, text and binary values at the terminator
at the latest. -/

namespace IndexedTable

/-- Numbers compare by their leading digits first. -/
theorem compare_add_mul {base low low' : Nat} (hLow : low < base) (hLow' : low' < base)
    (high high' : Nat) :
    compare (low + base * high) (low' + base * high') =
      (compare high high').then (compare low low') := by
  cases h : compare high high' with
  | lt =>
      have hHigh : base * (high + 1) ≤ base * high' :=
        Nat.mul_le_mul_left base (Nat.compare_eq_lt.mp h)
      rw [Nat.mul_succ] at hHigh
      exact Nat.compare_eq_lt.mpr (by omega)
  | eq =>
      obtain rfl := Nat.compare_eq_eq.mp h
      rw [Ordering.eq_then]
      cases hl : compare low low' with
      | lt => exact Nat.compare_eq_lt.mpr (by have := Nat.compare_eq_lt.mp hl; omega)
      | eq => exact Nat.compare_eq_eq.mpr (by have := Nat.compare_eq_eq.mp hl; omega)
      | gt => exact Nat.compare_eq_gt.mpr (by have := Nat.compare_eq_gt.mp hl; omega)
  | gt =>
      have hHigh : base * (high' + 1) ≤ base * high :=
        Nat.mul_le_mul_left base (Nat.compare_eq_gt.mp h)
      rw [Nat.mul_succ] at hHigh
      exact Nat.compare_eq_gt.mpr (by omega)

theorem compare_toUInt8 (m n : Nat) :
    compare m.toUInt8 n.toUInt8 = compare (m % 256) (n % 256) := by
  rw [compare_toNat]
  rfl

/-- A fixed width holds a number up to its remainder. -/
theorem settled?_bigEndian (width m n : Nat) :
    settled? (bigEndian width m) (bigEndian width n) =
      some (compare (m % 256 ^ width) (n % 256 ^ width)) := by
  induction width with
  | zero => simp [bigEndian, settled?, Nat.mod_one]
  | succ width ih =>
      have hPositive : 0 < 256 ^ width := Nat.pow_pos (by decide)
      rw [Nat.mod_pow_succ, Nat.mod_pow_succ,
        compare_add_mul (Nat.mod_lt m hPositive) (Nat.mod_lt n hPositive), ← compare_toUInt8]
      simp only [bigEndian]
      by_cases hHead : (m / 256 ^ width).toUInt8 = (n / 256 ^ width).toUInt8
      · rw [hHead, settled?_cons_self, ih]
        simp
      · rw [settled?_cons_of_ne hHead]
        cases hc : compare (m / 256 ^ width).toUInt8 (n / 256 ^ width).toUInt8 with
        | eq => exact absurd (Std.LawfulEqCmp.eq_of_compare hc) hHead
        | lt | gt => rfl

theorem settled?_bigEndian_of_lt {width m n : Nat} (hm : m < 256 ^ width)
    (hn : n < 256 ^ width) :
    settled? (bigEndian width m) (bigEndian width n) = some (compare m n) := by
  rw [settled?_bigEndian, Nat.mod_eq_of_lt hm, Nat.mod_eq_of_lt hn]

/-- Signed numbers are shifted to start from zero, which keeps their order. -/
theorem compare_shifted {m n offset : Int} (hm : -offset ≤ m) (hn : -offset ≤ n) :
    compare (m + offset).toNat (n + offset).toNat = compare m n := by
  cases h : compare m n with
  | lt => exact Nat.compare_eq_lt.mpr (by have := Std.compare_eq_lt.mp h; omega)
  | eq => exact Nat.compare_eq_eq.mpr (by have : m = n := Std.LawfulEqCmp.eq_of_compare h; omega)
  | gt => exact Nat.compare_eq_gt.mpr (by have := Std.compare_eq_gt.mp h; omega)

namespace KeyColumn

/-- The code of one byte of a text or binary value. No code begins another one or the
terminator. -/
def escapeByte (b : UInt8) : List UInt8 :=
  if b = 0x00 then [0x00, 0x01] else if b = 0xff then [0xff, 0x00] else [b]

theorem escape_cons (b : UInt8) (bytes : List UInt8) :
    escape (b :: bytes) = escapeByte b ++ escape bytes := rfl

theorem escape_append (first second : List UInt8) :
    escape (first ++ second) = escape first ++ escape second :=
  List.flatMap_append

/-- A code starts with its byte, which alone tells it from the codes of other bytes. -/
theorem escapeByte_eq_cons (b : UInt8) : ∃ tail, escapeByte b = b :: tail := by
  unfold escapeByte
  split
  · exact ⟨[0x01], by simp_all⟩
  · split
    · exact ⟨[0x00], by simp_all⟩
    · exact ⟨[], rfl⟩

theorem settled?_escapeByte_of_ne {a b : UInt8} (h : a ≠ b) (xs ys : List UInt8) :
    settled? (escapeByte a ++ xs) (escapeByte b ++ ys) = some (compare a b) := by
  obtain ⟨aTail, ha⟩ := escapeByte_eq_cons a
  obtain ⟨bTail, hb⟩ := escapeByte_eq_cons b
  rw [ha, hb]
  exact settled?_cons_of_ne h _ _

/-- The end of a text or binary value comes before every continuation of it. -/
theorem settled?_terminator_escapeByte (b : UInt8) (xs ys : List UInt8) :
    settled? (terminator ++ xs) (escapeByte b ++ ys) = some .lt := by
  by_cases hb : b = 0x00
  · subst b
    rfl
  · obtain ⟨tail, hTail⟩ := escapeByte_eq_cons b
    have hLess : (0x00 : UInt8) < b := by
      rw [UInt8.lt_iff_toNat_lt]
      exact Nat.pos_of_ne_zero fun h => hb (UInt8.toNat_inj.mp h)
    rw [hTail]
    exact (settled?_cons_of_ne (Ne.symm hb) _ _).trans
      (congrArg some (Std.compare_eq_lt.mpr hLess))

/-- Escaped and terminated strings are in the order of the strings, a string before its
extensions. -/
theorem settled?_escape (a b : List UInt8) :
    settled? (escape a ++ terminator) (escape b ++ terminator) = some (compare a b) := by
  induction a generalizing b with
  | nil =>
      cases b with
      | nil => rfl
      | cons y b =>
          rw [escape_cons, List.append_assoc, List.compare_nil_cons]
          exact settled?_terminator_escapeByte y [] (escape b ++ terminator)
  | cons x a ih =>
      cases b with
      | nil =>
          rw [settled?_swap, escape_cons, List.append_assoc, List.compare_cons_nil]
          exact congrArg (Option.map Ordering.swap)
            (settled?_terminator_escapeByte x [] (escape a ++ terminator))
      | cons y b =>
          rw [escape_cons, escape_cons, List.append_assoc, List.append_assoc,
            List.compare_cons_cons]
          by_cases hxy : x = y
          · subst y
            simp [ih]
          · rw [settled?_escapeByte_of_ne hxy]
            cases hc : compare x y with
            | eq => exact absurd (Std.LawfulEqCmp.eq_of_compare hc) hxy
            | lt | gt => rfl

theorem settled?_valueTag (xs ys : List UInt8) :
    settled? (valueTag :: xs) (valueTag :: ys) = settled? xs ys :=
  settled?_cons_self _ _ _

end KeyColumn

namespace Value

/-- The order of the segments of two values: the order of values, but for floating-point numbers the
order of their ordinals. -/
def keyOrder : Value → Value → Ordering
  | .float64 x, .float64 y => compare x.ordinal y.ordinal
  | a, b => a.order b

/-- Two values whose keys compare as they do; only not-a-number patterns can fail to. -/
def Comparable : Value → Value → Prop
  | .float64 x, .float64 y => x.Comparable y
  | _, _ => True

theorem comparable_of_not_isNaN {a b : Value} (ha : a.isNaN = false) (hb : b.isNaN = false) :
    Comparable a b := by
  unfold Comparable
  split
  · exact Binary64.comparable_of_not_isNaN ha hb
  · trivial

theorem keyOrder_eq_order_iff (a b : Value) : a.keyOrder b = a.order b ↔ a.Comparable b := by
  unfold keyOrder Comparable
  split
  · exact Binary64.compare_ordinal_eq_order_iff _ _
  · simp

theorem keyOrder_null_left {b : Value} (h : b ≠ .null) : keyOrder .null b = .lt := by
  cases b with
  | null => exact absurd rfl h
  | _ => rfl

theorem keyOrder_null_right {a : Value} (h : a ≠ .null) : keyOrder a .null = .gt := by
  cases a with
  | null => exact absurd rfl h
  | _ => rfl

end Value

namespace KeyColumn

theorem segment?_eq_cons {isOpen : Bool} {value : Value} {s : List UInt8}
    (h : segment? isOpen value = some s) (hNull : value ≠ .null) :
    ∃ rest, s = valueTag :: rest := by
  cases value with
  | null => exact absurd rfl hNull
  | list items => cases h
  | _ =>
      cases h
      exact ⟨_, rfl⟩

theorem settled?_int32 (m n : Int32) :
    settled? (bigEndian 4 (m.toInt + 2 ^ 31).toNat) (bigEndian 4 (n.toInt + 2 ^ 31).toNat) =
      some (compare m.toInt n.toInt) := by
  have hm := m.le_toInt
  have hmLt := m.toInt_lt
  have hn := n.le_toInt
  have hnLt := n.toInt_lt
  rw [settled?_bigEndian_of_lt (by omega) (by omega), compare_shifted hm hn]

theorem settled?_int64 (m n : Int64) :
    settled? (bigEndian 8 (m.toInt + 2 ^ 63).toNat) (bigEndian 8 (n.toInt + 2 ^ 63).toNat) =
      some (compare m.toInt n.toInt) := by
  have hm := m.le_toInt
  have hmLt := m.toInt_lt
  have hn := n.le_toInt
  have hnLt := n.toInt_lt
  rw [settled?_bigEndian_of_lt (by omega) (by omega), compare_shifted hm hn]

theorem settled?_segment_of_dataType {type : DataType} {a b : Value} {s t : List UInt8}
    (ha : a.dataType? = some type) (hb : b.dataType? = some type)
    (hs : segment? false a = some s) (ht : segment? false b = some t) :
    settled? s t = some (a.keyOrder b) := by
  rw [← hb] at ha
  cases a with
  | null | list _ => cases b <;> simp [Value.dataType?] at ha hb
  | boolean x =>
      cases b <;> cases ha
      cases hs
      cases ht
      rename_i y
      cases x <;> cases y <;> rfl
  | int32 m =>
      cases b <;> cases ha
      cases hs
      cases ht
      exact (settled?_valueTag _ _).trans (settled?_int32 _ _)
  | int64 m | dateTime m =>
      cases b <;> cases ha
      cases hs
      cases ht
      exact (settled?_valueTag _ _).trans (settled?_int64 _ _)
  | float64 x =>
      cases b <;> cases ha
      cases hs
      cases ht
      rename_i y
      exact (settled?_valueTag _ _).trans (settled?_bigEndian_of_lt x.ordinal_lt y.ordinal_lt)
  | text x =>
      cases b <;> cases ha
      cases hs
      cases ht
      exact (settled?_valueTag _ _).trans (settled?_escape _ _)
  | bytes x =>
      cases b <;> cases ha
      cases hs
      cases ht
      exact (settled?_valueTag _ _).trans (settled?_escape _ _)

/-- The segments of two values of one column are in the order of the values, null first and
floating-point numbers by their ordinals. -/
theorem settled?_segment {type : DataType} {a b : Value} {s t : List UInt8}
    (ha : a.Fits type) (hb : b.Fits type)
    (hs : segment? false a = some s) (ht : segment? false b = some t) :
    settled? s t = some (a.keyOrder b) := by
  by_cases haNull : a = .null
  · subst a
    obtain rfl : [nullTag] = s := Option.some.inj hs
    by_cases hbNull : b = .null
    · subst b
      obtain rfl : [nullTag] = t := Option.some.inj ht
      rfl
    · obtain ⟨rest, rfl⟩ := segment?_eq_cons ht hbNull
      rw [Value.keyOrder_null_left hbNull]
      rfl
  · by_cases hbNull : b = .null
    · subst b
      obtain rfl : [nullTag] = t := Option.some.inj ht
      obtain ⟨rest, rfl⟩ := segment?_eq_cons hs haNull
      rw [Value.keyOrder_null_right haNull]
      rfl
    · exact settled?_segment_of_dataType (ha.resolve_left haNull) (hb.resolve_left hbNull)
        hs ht

end KeyColumn

end IndexedTable

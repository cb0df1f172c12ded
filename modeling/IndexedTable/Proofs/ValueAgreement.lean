import IndexedTable.Proofs.FloatOrder
import IndexedTable.Proofs.ValuePreorder
import IndexedTable.Value.Hashing

/-! Equality of values beside the order and beside what a hasher is fed. Equality is finer than a
tie of the order, which also joins integers of different width with one number. It is coarser than
equal data for a hasher, which tell apart the two zeros and the not-a-number patterns. Integers of
one width, and floating-point numbers of one pattern for each number, have none of the three
differ. -/

namespace IndexedTable

namespace Binary64

/-- The pattern that stands for all those equal to it: one of the zeros, one of the not-a-number
patterns, and every other pattern for itself. -/
def representative (x : Binary64) : Binary64 :=
  if x.isNaN then ⟨0x7ff8000000000000⟩ else if x.magnitude = 0 then zero else x

theorem units_eq_zero_iff (x : Binary64) : x.units = 0 ↔ x.magnitude = 0 := by
  unfold units
  split <;> omega

theorem equal_representative (x : Binary64) : x.equal x.representative = true := by
  unfold representative
  split
  · rename_i hx
    rw [equal, hx]
    rfl
  · rename_i hx
    split
    · rename_i hZero
      rw [equal, Bool.eq_false_iff.mpr hx, x.units_eq_zero_iff.mpr hZero]
      rfl
    · exact x.equal_self

theorem representative_eq_of_equal {x y : Binary64} (hEqual : x.equal y = true) :
    x.representative = y.representative := by
  unfold equal at hEqual
  unfold representative
  cases hx : x.isNaN <;> cases hy : y.isNaN <;> simp only [hx, hy] at hEqual
  case true.true => rfl
  case true.false | false.true => cases hEqual
  case false.false =>
      have hUnits : x.units = y.units := by simpa using hEqual
      have hZeros : x.magnitude = 0 ↔ y.magnitude = 0 := by
        rw [← units_eq_zero_iff, ← units_eq_zero_iff, hUnits]
      simp only [Bool.false_eq_true, if_false]
      split
      · rw [if_pos (hZeros.mp ‹_›)]
      · rename_i hNonzero
        have hOther := hZeros.not.mp hNonzero
        rw [if_neg hOther]
        rw [magnitude_eq_zero_iff] at hNonzero hOther
        refine eq_of_ordinal_eq_of_ne_zero hNonzero hOther (Nat.compare_eq_eq.mp ?_)
        rw [compare_ordinal, hUnits]
        exact Std.ReflCmp.compare_self

theorem equal_iff_representative (x y : Binary64) :
    x.equal y = true ↔ x.representative = y.representative := by
  refine ⟨representative_eq_of_equal, fun hSame => ?_⟩
  refine equal_trans (hSame ▸ x.equal_representative) ?_
  rw [equal_comm]
  exact y.equal_representative

end Binary64

namespace Value

mutual

/-- The value that stands for all those equal to it. -/
def representative : Value → Value
  | float64 x => float64 x.representative
  | list items => list (representativeItems items)
  | value => value

/-- The representatives of several values. -/
def representativeItems : List Value → List Value
  | [] => []
  | item :: rest => representative item :: representativeItems rest

end

mutual

/-- The value with every integer in the larger width. -/
def widened : Value → Value
  | int32 n => int64 n.toInt64
  | list items => list (widenedItems items)
  | value => value

/-- Several values with every integer in the larger width. -/
def widenedItems : List Value → List Value
  | [] => []
  | item :: rest => widened item :: widenedItems rest

end

mutual

/-- Values of one variant; lists also item by item. -/
def SameVariants : Value → Value → Prop
  | list as, list bs => SameVariantsItems as bs
  | a, b => a.rank = b.rank

/-- Lists of one length whose items are of the same variants. -/
def SameVariantsItems : List Value → List Value → Prop
  | [], [] => True
  | a :: as, b :: bs => SameVariants a b ∧ SameVariantsItems as bs
  | _, _ => False

end

mutual

theorem equal_iff_representative : ∀ a b : Value,
    a.equal b = true ↔ a.representative = b.representative
  | list as, b => by
      cases b with
      | list bs => simpa [equal, representative] using equalItems_iff_representativeItems as bs
      | _ => simp [equal, representative]
  | float64 x, b => by
      cases b with
      | float64 y => simpa [equal, representative] using Binary64.equal_iff_representative x y
      | _ => simp [equal, representative]
  | null, b | boolean _, b | int32 _, b | int64 _, b | text _, b | dateTime _, b | bytes _, b => by
      cases b <;> simp [equal, representative]

theorem equalItems_iff_representativeItems : ∀ as bs : List Value,
    equalItems as bs = true ↔ representativeItems as = representativeItems bs
  | [], bs => by cases bs <;> simp [equalItems, representativeItems]
  | a :: as, bs => by
      cases bs with
      | nil => simp [equalItems, representativeItems]
      | cons b bs =>
          simp [equalItems, representativeItems, equal_iff_representative a b,
            equalItems_iff_representativeItems as bs]

end

mutual

/-- The order joins what equality does once all integers have one width. -/
theorem order_eq_iff_widened : ∀ a b : Value,
    a.order b = .eq ↔ a.widened.equal b.widened = true
  | list as, b => by
      cases b with
      | list bs => simpa [order, widened, equal] using orderItems_eq_iff_widenedItems as bs
      | _ => simp [order, widened, equal, rank]
  | null, b | boolean _, b | int32 _, b | int64 _, b | float64 _, b | text _, b | dateTime _, b
  | bytes _, b => by
      cases b <;> simp [order, widened, equal, rank, ← Int64.toInt_inj,
        Binary64.order_eq_iff_equal, utf8_inj]

theorem orderItems_eq_iff_widenedItems : ∀ as bs : List Value,
    orderItems as bs = .eq ↔ equalItems (widenedItems as) (widenedItems bs) = true
  | [], bs => by cases bs <;> simp [orderItems, equalItems, widenedItems]
  | a :: as, bs => by
      cases bs with
      | nil => simp [orderItems, equalItems, widenedItems]
      | cons b bs =>
          simp [orderItems, equalItems, widenedItems, Ordering.then_eq_eq,
            order_eq_iff_widened a b, orderItems_eq_iff_widenedItems as bs]

end

mutual

/-- Of the values that the order joins, those of the same variants are equal. -/
theorem equal_iff_order_eq : ∀ a b : Value, a.equal b = true ↔ a.order b = .eq ∧ a.SameVariants b
  | list as, b => by
      cases b with
      | list bs => simpa [equal, order, SameVariants] using equalItems_iff_orderItems_eq as bs
      | _ => simp [equal, SameVariants, rank]
  | null, b | boolean _, b | int32 _, b | int64 _, b | float64 _, b | text _, b | dateTime _, b
  | bytes _, b => by
      cases b <;> simp [equal, order, SameVariants, rank, ← Int64.toInt_inj, ← Int32.toInt_inj,
        Binary64.order_eq_iff_equal, utf8_inj]

theorem equalItems_iff_orderItems_eq : ∀ as bs : List Value,
    equalItems as bs = true ↔ orderItems as bs = .eq ∧ SameVariantsItems as bs
  | [], bs => by cases bs <;> simp [equalItems, orderItems, SameVariantsItems]
  | a :: as, bs => by
      cases bs with
      | nil => simp [equalItems, orderItems, SameVariantsItems]
      | cons b bs =>
          simp only [equalItems, orderItems, SameVariantsItems, Ordering.then_eq_eq,
            Bool.and_eq_true, equal_iff_order_eq a b, equalItems_iff_orderItems_eq as bs]
          tauto

end

mutual

/-- What a value feeds to a hasher can be told from what follows. -/
theorem hashed_append_inj : ∀ {a b : Value} {s t : List HashPiece},
    a.hashed ++ s = b.hashed ++ t → a = b ∧ s = t
  | list as, b, s, t, h => by
      cases b with
      | list bs =>
          simp only [hashed, List.cons_append, List.cons.injEq, HashPiece.length.injEq] at h
          obtain ⟨-, hLength, hItems⟩ := h
          obtain ⟨rfl, rfl⟩ := hashedItems_append_inj hLength hItems
          exact ⟨rfl, rfl⟩
      | _ => simp [hashed, rank] at h
  | boolean p, b, s, t, h => by
      cases b with
      | boolean q => cases p <;> cases q <;> simp_all [hashed]
      | _ => simp [hashed, rank] at h
  | null, b, s, t, h | int32 _, b, s, t, h | int64 _, b, s, t, h | float64 ⟨_⟩, b, s, t, h
  | text _, b, s, t, h | dateTime _, b, s, t, h | bytes _, b, s, t, h => by
      cases b <;> simp_all [hashed, rank]

theorem hashedItems_append_inj : ∀ {as bs : List Value} {s t : List HashPiece},
    as.length = bs.length → hashedItems as ++ s = hashedItems bs ++ t → as = bs ∧ s = t
  | [], bs, s, t, hLength, h => by
      obtain rfl := List.eq_nil_of_length_eq_zero hLength.symm
      exact ⟨rfl, h⟩
  | a :: as, [], s, t, hLength, h => by cases hLength
  | a :: as, b :: bs, s, t, hLength, h => by
      simp only [hashedItems, List.append_assoc] at h
      obtain ⟨rfl, hRest⟩ := hashed_append_inj h
      obtain ⟨rfl, rfl⟩ := hashedItems_append_inj (Nat.succ.inj hLength) hRest
      exact ⟨rfl, rfl⟩

end

theorem hashed_eq_iff {a b : Value} : a.hashed = b.hashed ↔ a = b := by
  refine ⟨fun hSame => ?_, congrArg hashed⟩
  exact (hashed_append_inj (congrArg (· ++ []) hSame)).1

/-- How equality, the order and hashing differ. Values are equal if the order joins them and they
are of the same variants, item by item; the order joins what is equal once all integers have one
width; and a hasher is fed the same data by the same value alone, while equality goes by the
representative. So for integers of one width equality is a tie of the order, and equal values that
are their own representatives feed a hasher the same data. -/
theorem equal_order_hashed (a b : Value) :
    (a.equal b = true ↔ a.order b = .eq ∧ a.SameVariants b) ∧
    (a.order b = .eq ↔ a.widened.equal b.widened = true) ∧
    (a.hashed = b.hashed ↔ a = b) ∧
    (a.equal b = true ↔ a.representative = b.representative) ∧
    (a.widened = a → b.widened = b → (a.equal b = true ↔ a.order b = .eq)) ∧
    (a.representative = a → b.representative = b → a.equal b = true → a.hashed = b.hashed) := by
  refine ⟨equal_iff_order_eq a b, order_eq_iff_widened a b, hashed_eq_iff,
    equal_iff_representative a b, fun ha hb => ?_, fun ha hb hEqual => ?_⟩
  · rw [order_eq_iff_widened, ha, hb]
  · rw [hashed_eq_iff, ← ha, ← hb]
    exact (equal_iff_representative a b).mp hEqual

/-- Lists that the order joins although their integers differ in width, and equal lists of which a
hasher is fed different zeros. -/
theorem equal_order_hashed_of_nested :
    let narrow : Value := .list [.int32 1, .list [.float64 ⟨0⟩]]
    let wide : Value := .list [.int64 1, .list [.float64 ⟨0⟩]]
    let signed : Value := .list [.int64 1, .list [.float64 ⟨0x8000000000000000⟩]]
    (narrow.order wide = .eq ∧ narrow.equal wide = false) ∧
      (wide.equal signed = true ∧ wide.hashed ≠ signed.hashed) ∧
      wide.order signed = .eq ∧ narrow.hashed = narrow.representative.hashed := by
  intro narrow wide signed
  obtain ⟨hNarrow, hWiden, -⟩ := equal_order_hashed narrow wide
  obtain ⟨-, -, hHashed, hRepresent, hOneWidth, -⟩ := equal_order_hashed wide signed
  obtain ⟨-, -, -, -, -, hSelf⟩ := equal_order_hashed narrow narrow.representative
  have hOrder : narrow.order wide = .eq := hWiden.mpr (by decide)
  have hEqual : wide.equal signed = true := hRepresent.mpr (by decide)
  refine ⟨⟨hOrder, Bool.eq_false_iff.mpr fun hSame => ?_⟩, ⟨hEqual, fun hSame => ?_⟩,
    (hOneWidth rfl rfl).mp hEqual, hSelf (by decide) (by decide) (by decide)⟩
  · obtain ⟨-, hRanks, -⟩ := hNarrow.mp hSame
    cases hRanks
  · exact absurd (hHashed.mp hSame) (by decide)

end Value

end IndexedTable

import IndexedTable.Proofs.IntegerRounding

/-! Conversion against equality and order. A value that was converted once is not changed again, and
conversion of whole numbers keeps their order. It keeps them apart as well, in all types but one: of
the integers that no floating-point number denotes, each becomes the number of another integer. -/

namespace IndexedTable

namespace Value

variable {a b value coerced other otherCoerced : Value} {type : DataType} {m n : Int}

/-- The whole number that a value holds. Times are whole numbers of milliseconds. -/
def number? : Value → Option Int
  | int32 n => some n.toInt
  | int64 n => some n.toInt
  | dateTime n => some n.toInt
  | _ => none

/-- Whether a value is an integer of one of the two widths. -/
def IsInteger (value : Value) : Prop :=
  value.dataType? = some .int32 ∨ value.dataType? = some .int64

theorem IsInteger.exists_number (h : value.IsInteger) : ∃ n, value.number? = some n := by
  cases value <;> rcases h with h | h <;> cases h <;> exact ⟨_, rfl⟩

theorem IsInteger.kind_eq (ha : a.IsInteger) (hb : b.IsInteger) : a.kind = b.kind := by
  cases a <;> rcases ha with ha | ha <;> cases ha <;>
    cases b <;> rcases hb with hb | hb <;> cases hb <;> rfl

theorem rank_eq_of_dataType? (ha : a.dataType? = some type) (hb : b.dataType? = some type) :
    a.rank = b.rank := by
  cases a <;> cases ha <;> cases b <;> cases hb <;> rfl

theorem kind_eq_of_rank_eq (h : a.rank = b.rank) : a.kind = b.kind := by
  cases a <;> cases b <;> first | rfl | cases h

/-- Whole numbers of one kind are in the order of the numbers. -/
theorem order_of_number? (ha : a.number? = some m) (hb : b.number? = some n)
    (hKind : a.kind = b.kind) : a.order b = compare m n := by
  cases a <;> cases ha <;> cases b <;> cases hb <;> first | rfl | cases hKind

theorem equal_iff_of_number? (ha : a.number? = some m) (hb : b.number? = some n)
    (hRank : a.rank = b.rank) : a.equal b = true ↔ m = n := by
  cases a <;> cases ha <;> cases b <;> cases hb <;>
    simp_all [equal, rank, Int32.toInt_inj, Int64.toInt_inj]

theorem natAbs_lt_of_number? (h : value.number? = some n) : n.natAbs < 2 ^ 64 := by
  cases value <;> cases h
  case int32 n =>
      have hLow := n.le_toInt
      have hHigh := n.toInt_lt
      omega
  case int64 n | dateTime n =>
      have hLow := n.le_toInt
      have hHigh := n.toInt_lt
      omega

/-- Narrowing keeps the number. -/
theorem toInt_of_narrow? {n : Int64} {narrow : Int32} (h : narrow? n = some narrow) :
    narrow.toInt = n.toInt := by
  unfold narrow? at h
  split at h
  · cases h
    rw [Int64.toInt_toInt32]
    exact Int.bmod_eq_of_le (by omega) (by omega)
  · cases h

theorem narrow?_toInt64 (n : Int32) : narrow? n.toInt64 = some n := by
  rw [narrow?, Int32.toInt_toInt64, if_pos ⟨n.le_toInt, n.toInt_lt⟩, Int32.toInt32_toInt64]

/-- A whole number becomes the floating-point number nearest to it, or keeps its number in a value
of the type. -/
theorem coerce?_of_number? (hNumber : value.number? = some n)
    (h : value.coerce? type = some coerced) :
    (type = .float64 ∧ coerced = .float64 (.ofInt n)) ∨
      (type ≠ .float64 ∧ coerced.number? = some n ∧ coerced.dataType? = some type) := by
  unfold coerce? at h
  split at h
  case h_1 => cases hNumber
  case h_2 | h_3 =>
      cases h
      cases hNumber
      exact .inr ⟨by decide, congrArg some (Int32.toInt_toInt64 _), rfl⟩
  case h_4 | h_7 =>
      cases h
      cases hNumber
      exact .inl ⟨rfl, rfl⟩
  case h_5 =>
      obtain ⟨narrow, hNarrow, rfl⟩ := Option.map_eq_some_iff.mp h
      cases hNumber
      exact .inr ⟨by decide, congrArg some (toInt_of_narrow? hNarrow), rfl⟩
  case h_6 | h_8 =>
      cases h
      exact .inr ⟨by decide, hNumber, rfl⟩
  case h_9 =>
      split at h
      · rename_i hType
        cases h
        refine .inr ⟨?_, hNumber, hType⟩
        rintro rfl
        cases value <;> cases hType
        cases hNumber
      · cases h

/-- What is no whole number is not changed. -/
theorem eq_of_coerce?_of_number?_eq_none (hNumber : value.number? = none)
    (h : value.coerce? type = some coerced) : coerced = value := by
  unfold coerce? at h
  split at h
  case h_1 => exact (Option.some.inj h).symm
  case h_9 =>
      split at h
      · exact (Option.some.inj h).symm
      · cases h
  all_goals cases hNumber

/-- Conversion makes null of null alone. -/
theorem coerce?_eq_null_iff (h : value.coerce? type = some coerced) :
    coerced = .null ↔ value = .null := by
  rcases coerce?_cases h with ⟨rfl, -⟩ | ⟨hType, -⟩
  · exact Iff.rfl
  · refine iff_of_false ?_ ?_
    · rintro rfl
      cases hType
    · rintro rfl
      cases h
      cases hType

/-- Whole numbers stay in order, also where they are rounded; without rounding they stay apart. -/
theorem order_of_coerce? (ha : a.number? = some m) (hb : b.number? = some n)
    (hKind : a.kind = b.kind) (hFirst : a.coerce? type = some coerced)
    (hSecond : b.coerce? type = some otherCoerced) :
    (a.order b ≠ .gt → coerced.order otherCoerced ≠ .gt) ∧
      (a.order b = .lt → type ≠ .float64 → coerced.order otherCoerced = .lt) := by
  rw [order_of_number? ha hb hKind]
  rcases coerce?_of_number? ha hFirst with ⟨rfl, rfl⟩ | ⟨hType, hOwn, hOwnType⟩
  · rcases coerce?_of_number? hb hSecond with ⟨-, rfl⟩ | ⟨hOther, -⟩
    · refine ⟨fun hOrder => ?_, fun _ hOther => absurd rfl hOther⟩
      rw [order, Binary64.order_ofInt (natAbs_lt_of_number? ha) (natAbs_lt_of_number? hb)]
      have hLe : m ≤ n := Std.isLE_compare.mp (Ordering.isLE_iff_ne_gt.mpr hOrder)
      exact Ordering.isLE_iff_ne_gt.mp (Std.isLE_compare.mpr (Binary64.nearestInteger_mono hLe))
    · exact absurd rfl hOther
  · rcases coerce?_of_number? hb hSecond with ⟨hOther, -⟩ | ⟨-, hOther, hOtherType⟩
    · exact absurd hOther hType
    · have hKinds := kind_eq_of_rank_eq (rank_eq_of_dataType? hOwnType hOtherType)
      rw [order_of_number? hOwn hOther hKinds]
      exact ⟨id, fun hLess _ => hLess⟩

/-- Conversion changes nothing the second time, and leaves null or a value of the type. Integers
keep their order in every type, strictly unless the type is that of floating-point numbers. To the
larger width and to times and back it is reversible. -/
theorem coercion_idempotent_and_monotone (a : Value) (type : DataType) :
    (∀ coerced, a.coerce? type = some coerced → (coerced = .null ↔ a = .null) ∧
      (coerced ≠ .null → coerced.dataType? = some type) ∧
      coerced.coerce? type = some coerced) ∧
    (∀ b first second : Value, a.IsInteger → b.IsInteger → a.coerce? type = some first →
      b.coerce? type = some second → a.order b ≠ .gt → first.order second ≠ .gt ∧
      (a.order b = .lt → type ≠ .float64 → first.order second = .lt)) ∧
    (a.dataType? = some .int32 → (a.coerce? .int64).bind (·.coerce? .int32) = some a) ∧
    (a.dataType? = some .int64 → (a.coerce? .dateTime).bind (·.coerce? .int64) = some a) := by
  refine ⟨fun coerced h => ?_, fun b first second ha hb hFirst hSecond hOrder => ?_,
    fun hType => ?_, fun hType => ?_⟩
  · have hFits := fits_of_coerce? h
    exact ⟨coerce?_eq_null_iff h, hFits.resolve_left, coerce?_of_fits hFits⟩
  · obtain ⟨m, hm⟩ := ha.exists_number
    obtain ⟨n, hn⟩ := hb.exists_number
    obtain ⟨hKeeps, hStrict⟩ := order_of_coerce? hm hn (ha.kind_eq hb) hFirst hSecond
    exact ⟨hKeeps hOrder, hStrict⟩
  · cases a <;> cases hType
    exact congrArg (Option.map int32) (narrow?_toInt64 _)
  · cases a <;> cases hType
    rfl

/-- Two integers that become one floating-point number, and two that stay apart as times, of which
one goes to the larger width and back. -/
theorem coercion_idempotent_and_monotone_of_rounded :
    let even : Value := .int64 9007199254740992
    let odd : Value := .int64 9007199254740993
    let rounded : Value := .float64 ⟨0x4340000000000000⟩
    (even.order odd = .lt ∧ rounded.order rounded ≠ .gt ∧
        rounded.coerce? .float64 = some rounded) ∧
      (dateTime (-1)).order (dateTime 0) = .lt ∧
      ((int32 (-1)).coerce? .int64).bind (·.coerce? .int32) = some (int32 (-1)) := by
  intro even odd rounded
  have hLess : even.order odd = .lt := by decide
  have hEven : even.coerce? .float64 = some rounded := by decide +kernel
  have hOdd : odd.coerce? .float64 = some rounded := by decide +kernel
  obtain ⟨-, hOrder, -, -⟩ := coercion_idempotent_and_monotone even .float64
  obtain ⟨hRounded, -⟩ := hOrder odd rounded rounded (.inr rfl) (.inr rfl) hEven hOdd
    (by simp [hLess])
  obtain ⟨hOnce, -, -, -⟩ := coercion_idempotent_and_monotone odd .float64
  obtain ⟨-, hTimes, hBack, -⟩ := coercion_idempotent_and_monotone (.int32 (-1)) .dateTime
  obtain ⟨-, hApart⟩ := hTimes (.int64 0) (.dateTime (-1)) (.dateTime 0) (.inl rfl) (.inr rfl)
    (by decide) (by decide) (by decide)
  exact ⟨⟨hLess, hRounded, (hOnce rounded hOdd).2.2⟩, hApart (by decide) (by decide), hBack rfl⟩

/-- An integer of the larger width that no number of the type denotes. -/
def Inexact (value : Value) (type : DataType) : Prop :=
  type = .float64 ∧ ∃ n, value = int64 n ∧ ∀ x : Binary64, ¬ x.Denotes n.toInt

theorem inexact_iff {n : Int64} :
    (int64 n).Inexact type ↔ type = .float64 ∧ Binary64.nearestInteger n.toInt ≠ n.toInt := by
  have hDenotes := Binary64.exists_denotes_iff (@natAbs_lt_of_number? (int64 n) _ rfl)
  simp only [Inexact, int64.injEq, exists_eq_left', ne_eq, ← hDenotes, not_exists]

/-- Integers of the smaller width are not rounded. -/
theorem nearestInteger_eq_or_inexact (hNumber : value.number? = some n)
    (h : value.coerce? .float64 = some coerced) :
    Binary64.nearestInteger n = n ∨ value.Inexact .float64 := by
  cases value <;> cases hNumber
  case int32 n =>
      have hLow := n.le_toInt
      have hHigh := n.toInt_lt
      exact .inl (Binary64.nearestInteger_of_le (by omega))
  case int64 n =>
      rw [inexact_iff]
      by_cases hSame : Binary64.nearestInteger n.toInt = n.toInt
      · exact .inl hSame
      · exact .inr ⟨rfl, hSame⟩
  case dateTime n => cases h

theorem exists_number_of_rank_eq (hRank : a.rank = b.rank) :
    (a.number? = none ∧ b.number? = none) ∨ ∃ m n, a.number? = some m ∧ b.number? = some n := by
  cases a <;> cases b <;> first | exact .inl ⟨rfl, rfl⟩ | exact .inr ⟨_, _, rfl, rfl⟩ | cases hRank

/-- Values of one variant that a conversion makes equal were so before, unless one of them is not
exact. -/
theorem equal_of_coerce? (hRank : a.rank = b.rank) (hFirst : a.coerce? type = some coerced)
    (hSecond : b.coerce? type = some otherCoerced) (hEqual : coerced.equal otherCoerced = true) :
    a.equal b = true ∨ a.Inexact type ∨ b.Inexact type := by
  rcases exists_number_of_rank_eq hRank with ⟨ha, hb⟩ | ⟨m, n, ha, hb⟩
  · obtain rfl := eq_of_coerce?_of_number?_eq_none ha hFirst
    obtain rfl := eq_of_coerce?_of_number?_eq_none hb hSecond
    exact .inl hEqual
  rw [equal_iff_of_number? ha hb hRank]
  rcases coerce?_of_number? ha hFirst with ⟨rfl, rfl⟩ | ⟨hType, hOwn, hOwnType⟩
  · obtain ⟨-, rfl⟩ := (coerce?_of_number? hb hSecond).resolve_right fun h => h.1 rfl
    rw [equal, Binary64.equal_ofInt_iff (natAbs_lt_of_number? ha) (natAbs_lt_of_number? hb)]
      at hEqual
    rcases nearestInteger_eq_or_inexact ha hFirst with hExact | hInexact
    · rcases nearestInteger_eq_or_inexact hb hSecond with hOtherExact | hInexact
      · exact .inl (hExact.symm.trans (hEqual.trans hOtherExact))
      · exact .inr (.inr hInexact)
    · exact .inr (.inl hInexact)
  · obtain ⟨-, hOther, hOtherType⟩ :=
      (coerce?_of_number? hb hSecond).resolve_left fun h => hType h.1
    have hRanks := rank_eq_of_dataType? hOwnType hOtherType
    exact .inl ((equal_iff_of_number? hOwn hOther hRanks).mp hEqual)

/-- An integer that is rounded is rounded together with one of its neighbours. -/
theorem exists_rounded_together {n : Int64} (h : Binary64.nearestInteger n.toInt ≠ n.toInt) :
    ∃ m : Int64, m ≠ n ∧ Binary64.nearestInteger m.toInt = Binary64.nearestInteger n.toInt := by
  have hLow := n.le_toInt
  have hHigh := n.toInt_lt
  have hSize : n.toInt.natAbs < 2 ^ 64 := by omega
  have hLeast := Binary64.nearestInteger_mono hLow
  rw [show Binary64.nearestInteger (-2 ^ 63) = -2 ^ 63 by decide] at hLeast
  have hNeighbour : ∀ m : Int, m ≠ n.toInt → -2 ^ 63 ≤ m → m < 2 ^ 63 →
      Binary64.nearestInteger m = Binary64.nearestInteger n.toInt →
      ∃ m : Int64, m ≠ n ∧ Binary64.nearestInteger m.toInt = Binary64.nearestInteger n.toInt := by
    intro m hOther hFrom hTo hSame
    have hNumber : (Int64.ofInt m).toInt = m := Int64.toInt_ofInt_of_le hFrom hTo
    exact ⟨.ofInt m, fun hEqual => hOther (by rw [← hNumber, hEqual]), by rw [hNumber, hSame]⟩
  rcases Int.lt_or_gt_of_ne h with hBelow | hAbove
  · refine hNeighbour (n.toInt - 1) (by omega) (by omega) (by omega) ?_
    exact Binary64.nearestInteger_eq_of_between hSize (.inr (by omega))
  · by_cases hLast : n.toInt = 2 ^ 63 - 1
    · -- What the greatest integer is rounded to is itself no integer of the width.
      refine hNeighbour (n.toInt - 1) (by omega) (by omega) (by omega) ?_
      rw [hLast]
      decide
    · refine hNeighbour (n.toInt + 1) (by omega) (by omega) (by omega) ?_
      exact Binary64.nearestInteger_eq_of_between hSize (.inl (by omega))

/-- Conversion makes values of one variant equal that were not so before only where one of them is
an integer that no floating-point number denotes, and every such integer is made equal to another
one. Integers of at most 53 bits are not among them. -/
theorem coercion_merges_inexact (a : Value) (type : DataType) :
    (∀ b first second : Value, a.rank = b.rank → a.coerce? type = some first →
      b.coerce? type = some second → first.equal second = true →
      a.equal b = true ∨ a.Inexact type ∨ b.Inexact type) ∧
    (a.Inexact type → ∃ b first second : Value, a.rank = b.rank ∧ a.equal b = false ∧
      a.coerce? type = some first ∧ b.coerce? type = some second ∧ first.equal second = true) ∧
    ∀ n : Int64, a = int64 n → n.toInt.natAbs ≤ 2 ^ 53 → ¬ a.Inexact type := by
  refine ⟨fun b first second => equal_of_coerce?, fun hInexact => ?_,
    fun n hNumber hSmall hInexact => ?_⟩
  · obtain ⟨rfl, n, rfl, -⟩ := id hInexact
    obtain ⟨m, hOther, hTogether⟩ := exists_rounded_together (inexact_iff.mp hInexact).2
    refine ⟨int64 m, _, _, rfl, ?_, rfl, rfl, ?_⟩
    · simpa [equal] using hOther.symm
    · rw [equal, Binary64.equal_ofInt_iff (@natAbs_lt_of_number? (int64 n) _ rfl)
        (@natAbs_lt_of_number? (int64 m) _ rfl), hTogether]
  · subst hNumber
    exact (inexact_iff.mp hInexact).2 (Binary64.nearestInteger_of_le hSmall)

/-- The least positive integer that is not exact, which becomes equal to another one. The two before
it are exact. -/
theorem coercion_merges_inexact_of_odd :
    let last : Value := .int64 9007199254740992
    let before : Value := .int64 9007199254740991
    let odd : Value := .int64 9007199254740993
    ¬ before.Inexact .float64 ∧ ¬ last.Inexact .float64 ∧
      (odd.Inexact .float64 ∧ ∃ b first second : Value, odd.equal b = false ∧
        odd.coerce? .float64 = some first ∧ b.coerce? .float64 = some second ∧
        first.equal second = true) ∧
      (last.equal odd = true ∨ last.Inexact .float64 ∨ odd.Inexact .float64) := by
  intro last before odd
  obtain ⟨-, -, hBefore⟩ := coercion_merges_inexact before .float64
  obtain ⟨hMerged, -, hLast⟩ := coercion_merges_inexact last .float64
  obtain ⟨-, hMerges, -⟩ := coercion_merges_inexact odd .float64
  have hOdd : odd.Inexact .float64 := inexact_iff.mpr ⟨rfl, by decide⟩
  obtain ⟨b, first, second, -, hOther, hFirst, hSecond, hEqual⟩ := hMerges hOdd
  exact ⟨hBefore _ rfl (by decide), hLast _ rfl (by decide),
    ⟨hOdd, b, first, second, hOther, hFirst, hSecond, hEqual⟩,
    hMerged odd _ _ rfl rfl rfl (by decide +kernel)⟩

end Value

end IndexedTable

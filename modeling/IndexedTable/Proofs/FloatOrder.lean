import IndexedTable.Key.Encoding
import Mathlib.Algebra.Group.Int.Defs
import Mathlib.Algebra.Group.Nat.Defs

/-! The ordinal of a floating-point number against its order. The ordinal follows the sign and the
magnitude of every pattern, so it agrees with the order of the numbers; not-a-number patterns take
part in it with their sign and payload, which the order of values ignores. -/

namespace IndexedTable.Binary64

/-- The pattern without its sign bit. -/
def unsignedPattern (x : Binary64) : Nat := x.bits.toNat % 2 ^ 63

/-- The magnitude that an unsigned pattern stands for. -/
def patternMagnitude (pattern : Nat) : Nat :=
  if pattern / 2 ^ 52 = 0 then pattern % 2 ^ 52
  else (2 ^ 52 + pattern % 2 ^ 52) * 2 ^ (pattern / 2 ^ 52 - 1)

theorem bits_eq (x : Binary64) :
    x.bits.toNat = x.unsignedPattern + if x.negative then 2 ^ 63 else 0 := by
  have hBits := x.bits.toNat_lt
  simp only [unsignedPattern, negative, decide_eq_true_eq]
  split <;> omega

theorem unsignedPattern_lt (x : Binary64) : x.unsignedPattern < 2 ^ 63 :=
  Nat.mod_lt _ (by decide)

theorem exponentField_eq (x : Binary64) : x.exponentField = x.unsignedPattern / 2 ^ 52 := by
  have hBits := x.bits.toNat_lt
  simp only [exponentField, unsignedPattern]
  omega

theorem fraction_eq (x : Binary64) : x.fraction = x.unsignedPattern % 2 ^ 52 := by
  simp only [fraction, unsignedPattern]
  omega

theorem magnitude_eq (x : Binary64) : x.magnitude = patternMagnitude x.unsignedPattern := by
  simp only [magnitude, patternMagnitude, gap, exponentField_eq, fraction_eq]

/-- A larger pattern stands for a larger magnitude, also where the exponent changes. -/
theorem patternMagnitude_lt {a b : Nat} (h : a < b) :
    patternMagnitude a < patternMagnitude b := by
  have hSplit : a / 2 ^ 52 < b / 2 ^ 52 ∨
      (a / 2 ^ 52 = b / 2 ^ 52 ∧ a % 2 ^ 52 < b % 2 ^ 52) := by omega
  have hFraction : a % 2 ^ 52 < 2 ^ 52 := Nat.mod_lt _ (by decide)
  unfold patternMagnitude
  rcases hSplit with hExponent | ⟨hExponent, hFractions⟩
  · -- The binade of `b` starts where that of `a` has ended.
    have hPositive : b / 2 ^ 52 ≠ 0 := by omega
    rw [if_neg hPositive]
    split
    · calc
        a % 2 ^ 52 < 2 ^ 52 * 1 := by omega
        _ ≤ (2 ^ 52 + b % 2 ^ 52) * 2 ^ (b / 2 ^ 52 - 1) :=
          Nat.mul_le_mul (Nat.le_add_right _ _) Nat.one_le_two_pow
    · rename_i hNonzero
      calc
        (2 ^ 52 + a % 2 ^ 52) * 2 ^ (a / 2 ^ 52 - 1)
          < (2 ^ 52 * 2) * 2 ^ (a / 2 ^ 52 - 1) :=
            Nat.mul_lt_mul_of_pos_right (by omega) (Nat.two_pow_pos _)
        _ = 2 ^ 52 * 2 ^ (a / 2 ^ 52 - 1 + 1) := by rw [Nat.mul_assoc, ← Nat.pow_succ']
        _ ≤ (2 ^ 52 + b % 2 ^ 52) * 2 ^ (b / 2 ^ 52 - 1) :=
          Nat.mul_le_mul (Nat.le_add_right _ _) (Nat.pow_le_pow_right (by decide) (by omega))
  · rw [hExponent]
    split
    · exact hFractions
    · exact Nat.mul_lt_mul_of_pos_right (by omega) (Nat.two_pow_pos _)

theorem patternMagnitude_lt_iff {a b : Nat} :
    patternMagnitude a < patternMagnitude b ↔ a < b := by
  refine ⟨fun h => ?_, patternMagnitude_lt⟩
  rcases Nat.lt_trichotomy a b with hLess | hSame | hMore
  · exact hLess
  · subst b
    exact absurd h (Nat.lt_irrefl _)
  · exact absurd (Nat.lt_trans h (patternMagnitude_lt hMore)) (Nat.lt_irrefl _)

theorem magnitude_eq_zero_iff (x : Binary64) : x.magnitude = 0 ↔ x.unsignedPattern = 0 := by
  have hPositive := @patternMagnitude_lt_iff 0 x.unsignedPattern
  rw [show patternMagnitude 0 = 0 from rfl] at hPositive
  rw [magnitude_eq]
  omega

theorem ordinal_eq (x : Binary64) :
    x.ordinal =
      if x.unsignedPattern = 0 then 2 ^ 63
      else if x.negative then 2 ^ 63 - 1 - x.unsignedPattern
      else 2 ^ 63 + x.unsignedPattern := by
  have hBits := x.bits_eq
  simp only [ordinal, magnitude_eq_zero_iff]
  split
  · rfl
  · split
    · rename_i hNegative
      rw [if_pos hNegative] at hBits
      omega
    · rename_i hPositive
      rw [if_neg hPositive] at hBits
      omega

/-- Every ordinal fits the eight bytes it is written in. -/
theorem ordinal_lt (x : Binary64) : x.ordinal < 2 ^ 64 := by
  have hPattern := x.unsignedPattern_lt
  rw [ordinal_eq]
  split
  · omega
  · split <;> omega

theorem ordinal_lt_ordinal_iff (x y : Binary64) : x.ordinal < y.ordinal ↔ x.units < y.units := by
  have hx := x.unsignedPattern_lt
  have hy := y.unsignedPattern_lt
  have hLess := @patternMagnitude_lt_iff x.unsignedPattern y.unsignedPattern
  have hMore := @patternMagnitude_lt_iff y.unsignedPattern x.unsignedPattern
  have hxZero := x.magnitude_eq_zero_iff
  have hyZero := y.magnitude_eq_zero_iff
  rw [magnitude_eq] at hxZero hyZero
  simp only [ordinal_eq, units, magnitude_eq]
  cases x.negative <;> cases y.negative <;>
    simp only [Bool.false_eq_true, ↓reduceIte] <;> split <;> split <;> omega

/-- The ordinals of two patterns compare like the multiples they denote. -/
theorem compare_ordinal (x y : Binary64) :
    compare x.ordinal y.ordinal = compare x.units y.units := by
  have hLess := ordinal_lt_ordinal_iff x y
  have hMore := ordinal_lt_ordinal_iff y x
  cases h : compare x.units y.units with
  | lt => exact Nat.compare_eq_lt.mpr (hLess.mpr (Std.compare_eq_lt.mp h))
  | eq =>
      have hSame : x.units = y.units := Std.LawfulEqCmp.eq_of_compare h
      exact Nat.compare_eq_eq.mpr (by omega)
  | gt => exact Nat.compare_eq_gt.mpr (hMore.mpr (Std.compare_eq_gt.mp h))

theorem isNaN_iff (x : Binary64) : x.isNaN = true ↔ 2047 * 2 ^ 52 < x.unsignedPattern := by
  have hPattern := x.unsignedPattern_lt
  simp only [isNaN, exponentField_eq, fraction_eq, Bool.and_eq_true, beq_iff_eq, bne_iff_ne]
  omega

/-- Two numbers that compare by ordinal as they compare by value. Two not-a-number patterns must be
the same one, and one beside a number must be positive. -/
def Comparable (x y : Binary64) : Prop :=
  match x.isNaN, y.isNaN with
  | false, false => True
  | true, false => x.negative = false
  | false, true => y.negative = false
  | true, true => x = y

theorem comparable_of_not_isNaN {x y : Binary64} (hx : x.isNaN = false) (hy : y.isNaN = false) :
    Comparable x y := by
  simp [Comparable, hx, hy]

/-- Patterns other than the two zeros have an ordinal of their own each. -/
theorem eq_of_ordinal_eq_of_ne_zero {x y : Binary64} (hx : x.unsignedPattern ≠ 0)
    (hy : y.unsignedPattern ≠ 0) (h : x.ordinal = y.ordinal) : x = y := by
  have hxLt := x.unsignedPattern_lt
  have hyLt := y.unsignedPattern_lt
  have hxBits := x.bits_eq
  have hyBits := y.bits_eq
  rw [ordinal_eq, ordinal_eq, if_neg hx, if_neg hy] at h
  have hBits : x.bits.toNat = y.bits.toNat := by
    cases hxSign : x.negative <;> cases hySign : y.negative <;>
      simp only [hxSign, hySign, Bool.false_eq_true, ↓reduceIte] at h hxBits hyBits <;> omega
  obtain ⟨a⟩ := x
  obtain ⟨b⟩ := y
  exact congrArg Binary64.mk (UInt64.toNat.inj hBits)

theorem unsignedPattern_ne_zero_of_isNaN {x : Binary64} (hx : x.isNaN = true) :
    x.unsignedPattern ≠ 0 := by
  have hPattern := x.isNaN_iff.mp hx
  omega

theorem eq_of_ordinal_eq {x y : Binary64} (hx : x.isNaN = true) (hy : y.isNaN = true)
    (h : x.ordinal = y.ordinal) : x = y :=
  eq_of_ordinal_eq_of_ne_zero (unsignedPattern_ne_zero_of_isNaN hx)
    (unsignedPattern_ne_zero_of_isNaN hy) h

/-- A not-a-number pattern lies above every number when it is positive, below when negative. -/
theorem ordinal_isNaN {x y : Binary64} (hx : x.isNaN = true) (hy : y.isNaN = false) :
    compare x.ordinal y.ordinal = if x.negative then .lt else .gt := by
  have hxPattern := x.isNaN_iff.mp hx
  have hyPattern : ¬ 2047 * 2 ^ 52 < y.unsignedPattern := by
    rw [← isNaN_iff]
    simp [hy]
  have hxLt := x.unsignedPattern_lt
  have hxNonzero : x.unsignedPattern ≠ 0 := by omega
  rw [ordinal_eq x, if_neg hxNonzero, ordinal_eq y]
  cases x.negative with
  | false =>
      refine Nat.compare_eq_gt.mpr ?_
      simp only [Bool.false_eq_true, ↓reduceIte]
      split
      · omega
      · split <;> omega
  | true =>
      refine Nat.compare_eq_lt.mpr ?_
      simp only [↓reduceIte]
      split
      · omega
      · split <;> omega

/-- Comparability is exactly agreement of the ordinals with the order of values. -/
theorem compare_ordinal_eq_order_iff (x y : Binary64) :
    compare x.ordinal y.ordinal = x.order y ↔ Comparable x y := by
  unfold order Comparable
  cases hx : x.isNaN <;> cases hy : y.isNaN <;> simp only
  · simpa using compare_ordinal x y
  · have hSwap : compare x.ordinal y.ordinal = (compare y.ordinal x.ordinal).swap :=
      Std.OrientedCmp.eq_swap
    rw [hSwap, ordinal_isNaN hy hx]
    cases y.negative <;> simp
  · rw [ordinal_isNaN hx hy]
    cases x.negative <;> simp
  · constructor
    · intro h
      exact eq_of_ordinal_eq hx hy (Nat.compare_eq_eq.mp h)
    · intro h
      simp [h]

end IndexedTable.Binary64

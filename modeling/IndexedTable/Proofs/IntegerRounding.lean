import IndexedTable.Proofs.Coercion
import IndexedTable.Proofs.ValuePreorder

/-! Integers as floating-point numbers. The number made of an integer denotes the nearest integer of
at most 53 significant bits, which is the integer itself wherever some number denotes it. Rounding
keeps the order, and so takes to one number all integers between one and what it is rounded to. -/

namespace IndexedTable.Binary64

section NearestEven

variable {a b n denominator k : Nat}

theorem div_le_nearestEven : n / denominator ≤ nearestEven n denominator := by
  unfold nearestEven
  dsimp only
  split
  · exact Nat.le_refl _
  · split <;> omega

theorem nearestEven_le_div_add_one : nearestEven n denominator ≤ n / denominator + 1 := by
  unfold nearestEven
  dsimp only
  split
  · omega
  · split <;> omega

theorem nearestEven_mul (hDenominator : 0 < denominator) (k : Nat) :
    nearestEven (k * denominator) denominator = k := by
  simp [nearestEven, Nat.mul_div_cancel _ hDenominator, hDenominator]

theorem nearestEven_mono (h : a ≤ b) : nearestEven a denominator ≤ nearestEven b denominator := by
  have hQuotients : a / denominator ≤ b / denominator := Nat.div_le_div_right h
  rcases Nat.lt_or_eq_of_le hQuotients with hLess | hSame
  · exact Nat.le_trans nearestEven_le_div_add_one (Nat.le_trans hLess div_le_nearestEven)
  · have hRests : a % denominator ≤ b % denominator := by
      have ha := Nat.div_add_mod a denominator
      have hb := Nat.div_add_mod b denominator
      rw [hSame] at ha
      omega
    unfold nearestEven
    rw [hSame]
    dsimp only
    repeat' split
    all_goals omega

theorem nearestEven_le (hDenominator : 0 < denominator) (h : n ≤ k * denominator) :
    nearestEven n denominator ≤ k := by
  calc nearestEven n denominator ≤ nearestEven (k * denominator) denominator := nearestEven_mono h
    _ = k := nearestEven_mul hDenominator k

theorem le_nearestEven (hDenominator : 0 < denominator) (h : k * denominator ≤ n) :
    k ≤ nearestEven n denominator := by
  calc k = nearestEven (k * denominator) denominator := (nearestEven_mul hDenominator k).symm
    _ ≤ nearestEven n denominator := nearestEven_mono h

end NearestEven

section Whole

variable {a b n : Nat}

/-- The distance between integers of at most 53 significant bits, at the size of `n`. -/
def wholeGap (n : Nat) : Nat := 2 ^ (n.log2 - 52)

/-- The integer nearest to `n` of at most 53 significant bits; a half goes to the even multiple. -/
def nearestWhole (n : Nat) : Nat := nearestEven n (wholeGap n) * wholeGap n

theorem wholeGap_pos : 0 < wholeGap n := Nat.two_pow_pos _

theorem wholeGap_of_log2_le (h : n.log2 ≤ 52) : wholeGap n = 1 := by
  rw [wholeGap, Nat.sub_eq_zero_of_le h, Nat.pow_zero]

theorem two_pow_mul_wholeGap (h : 52 ≤ n.log2) (bits : Nat) :
    2 ^ (52 + bits) * wholeGap n = 2 ^ (n.log2 + bits) := by
  rw [wholeGap, ← Nat.pow_add]
  congr 1
  omega

/-- The multiple of the gap that an integer is rounded to has 53 bits, or is the next power of
two. -/
theorem nearestEven_wholeGap_bounds (h : 52 ≤ n.log2) :
    2 ^ 52 ≤ nearestEven n (wholeGap n) ∧ nearestEven n (wholeGap n) ≤ 2 ^ 53 := by
  have hn : n ≠ 0 := by
    rintro rfl
    exact absurd h (by decide)
  constructor
  · refine le_nearestEven wholeGap_pos ?_
    rw [two_pow_mul_wholeGap h 0]
    exact Nat.log2_self_le hn
  · refine nearestEven_le wholeGap_pos ?_
    rw [two_pow_mul_wholeGap h 1]
    exact Nat.le_of_lt Nat.lt_log2_self

theorem nearestWhole_eq_of_dvd (h : wholeGap n ∣ n) : nearestWhole n = n := by
  obtain ⟨k, hk⟩ := h
  have hMultiple : n = k * wholeGap n := hk.trans (Nat.mul_comm _ _)
  calc nearestWhole n = nearestEven (k * wholeGap n) (wholeGap n) * wholeGap n := by
        rw [nearestWhole, ← hMultiple]
    _ = k * wholeGap n := by rw [nearestEven_mul wholeGap_pos]
    _ = n := hMultiple.symm

theorem nearestWhole_of_log2_le (h : n.log2 ≤ 52) : nearestWhole n = n :=
  nearestWhole_eq_of_dvd (by simp [wholeGap_of_log2_le h])

/-- Rounding does not leave the powers of two that an integer lies between. -/
theorem nearestWhole_bounds (hn : n ≠ 0) :
    2 ^ n.log2 ≤ nearestWhole n ∧ nearestWhole n ≤ 2 ^ (n.log2 + 1) := by
  rcases Nat.le_total n.log2 52 with hSmall | hLarge
  · rw [nearestWhole_of_log2_le hSmall]
    exact ⟨Nat.log2_self_le hn, Nat.le_of_lt Nat.lt_log2_self⟩
  · obtain ⟨hLow, hHigh⟩ := nearestEven_wholeGap_bounds hLarge
    rw [← two_pow_mul_wholeGap hLarge 1, ← Nat.add_zero n.log2, ← two_pow_mul_wholeGap hLarge 0]
    exact ⟨Nat.mul_le_mul_right _ hLow, Nat.mul_le_mul_right _ hHigh⟩

theorem nearestWhole_mono (h : a ≤ b) : nearestWhole a ≤ nearestWhole b := by
  rcases Nat.eq_zero_or_pos a with rfl | hPositive
  · exact Nat.zero_le _
  have ha : a ≠ 0 := by omega
  have hb : b ≠ 0 := by omega
  have hLogs : a.log2 ≤ b.log2 := (Nat.le_log2 hb).mpr (Nat.le_trans (Nat.log2_self_le ha) h)
  rcases Nat.lt_or_eq_of_le hLogs with hLess | hSame
  · calc nearestWhole a ≤ 2 ^ (a.log2 + 1) := (nearestWhole_bounds ha).2
      _ ≤ 2 ^ b.log2 := Nat.pow_le_pow_right (by decide) hLess
      _ ≤ nearestWhole b := (nearestWhole_bounds hb).1
  · have hGaps : wholeGap a = wholeGap b := by rw [wholeGap, wholeGap, hSame]
    rw [nearestWhole, nearestWhole, hGaps]
    exact Nat.mul_le_mul_right _ (nearestEven_mono h)

/-- A significand at its exponent, also where it carries into the next one. -/
theorem patternMagnitude_add {exponent significand : Nat} (hLow : 2 ^ 52 ≤ significand)
    (hHigh : significand ≤ 2 ^ 53) :
    patternMagnitude (exponent * 2 ^ 52 + significand) = significand * 2 ^ exponent := by
  unfold patternMagnitude
  rcases Nat.lt_or_eq_of_le hHigh with hLess | rfl
  · have hExponent : (exponent * 2 ^ 52 + significand) / 2 ^ 52 = exponent + 1 := by omega
    have hFraction : (exponent * 2 ^ 52 + significand) % 2 ^ 52 = significand - 2 ^ 52 := by omega
    rw [hExponent, hFraction, if_neg (Nat.succ_ne_zero _), Nat.add_sub_cancel,
      Nat.add_sub_cancel' hLow]
  · have hExponent : (exponent * 2 ^ 52 + 2 ^ 53) / 2 ^ 52 = exponent + 2 := by omega
    have hFraction : (exponent * 2 ^ 52 + 2 ^ 53) % 2 ^ 52 = 0 := by omega
    rw [hExponent, hFraction, if_neg (Nat.succ_ne_zero _), Nat.add_zero,
      show exponent + 2 - 1 = 1 + exponent by omega, Nat.pow_add 2 1, ← Nat.mul_assoc,
      ← Nat.pow_succ]

/-- The number one, as a multiple of the least positive number. -/
def unitsOfOne : Nat := 2 ^ 1074

theorem unitsOfOne_pos : 0 < unitsOfOne := by
  have hPositive : ∀ k : Nat, 0 < 2 ^ k := Nat.two_pow_pos
  exact hPositive 1074

theorem two_pow_mul_two_pow_eq_unitsOfOne {a b : Nat} (h : a + b = 1074) :
    2 ^ a * 2 ^ b = unitsOfOne := by
  rw [← Nat.pow_add]
  exact congrArg (2 ^ ·) h

theorem two_pow_mul_unitsOfOne {a b : Nat} (h : a + 1074 = b) : 2 ^ a * unitsOfOne = 2 ^ b := by
  rw [unitsOfOne, ← Nat.pow_add]
  exact congrArg (2 ^ ·) h

/-- The pattern nearest to an integer: the exponent of the integer, and as significand the multiple
of the gap that the integer is rounded to. -/
theorem exists_nearestPattern_eq (hn : n ≠ 0) (hLog : n.log2 ≤ 1022) :
    ∃ significand, 2 ^ 52 ≤ significand ∧ significand ≤ 2 ^ 53 ∧
      nearestPattern n 1 = (n.log2 + 1022) * 2 ^ 52 + significand ∧
      significand * 2 ^ (n.log2 + 1022) = nearestWhole n * unitsOfOne := by
  have hExponent : max (binaryExponent n 1) (-1022) = (n.log2 : Int) := by
    rw [binaryExponent, if_pos (Nat.one_le_iff_ne_zero.mpr hn), Nat.div_one]
    omega
  have hBiased : ((n.log2 : Int) + 1022).toNat = n.log2 + 1022 := by omega
  unfold nearestPattern
  dsimp only
  rw [hExponent, hBiased]
  split
  · have hSmall : n.log2 ≤ 52 := by omega
    have hShift : (52 - (n.log2 : Int)).toNat = 52 - n.log2 := by omega
    have hLow : 2 ^ 52 ≤ n * 2 ^ (52 - n.log2) := by
      calc 2 ^ 52 = 2 ^ n.log2 * 2 ^ (52 - n.log2) := by rw [← Nat.pow_add]; congr 1; omega
        _ ≤ n * 2 ^ (52 - n.log2) := Nat.mul_le_mul_right _ (Nat.log2_self_le hn)
    have hHigh : n * 2 ^ (52 - n.log2) ≤ 2 ^ 53 := by
      calc n * 2 ^ (52 - n.log2) ≤ 2 ^ (n.log2 + 1) * 2 ^ (52 - n.log2) :=
            Nat.mul_le_mul_right _ (Nat.le_of_lt Nat.lt_log2_self)
        _ = 2 ^ 53 := by rw [← Nat.pow_add]; congr 1; omega
    have hEven := nearestEven_mul Nat.one_pos (n * 2 ^ (52 - n.log2))
    rw [Nat.mul_one] at hEven
    refine ⟨n * 2 ^ (52 - n.log2), hLow, hHigh, ?_, ?_⟩
    · rw [hShift, hEven, Nat.min_eq_left (by omega)]
    · rw [nearestWhole_of_log2_le hSmall, Nat.mul_assoc,
        two_pow_mul_two_pow_eq_unitsOfOne (by omega)]
  · have hLarge : 52 ≤ n.log2 := by omega
    have hShift : (-(52 - (n.log2 : Int))).toNat = n.log2 - 52 := by omega
    have hScale : wholeGap n * unitsOfOne = 2 ^ (n.log2 + 1022) :=
      two_pow_mul_unitsOfOne (by omega)
    obtain ⟨hLow, hHigh⟩ := nearestEven_wholeGap_bounds hLarge
    refine ⟨nearestEven n (wholeGap n), hLow, hHigh, ?_, ?_⟩
    · rw [hShift, Nat.one_mul, ← wholeGap, Nat.min_eq_left (by omega)]
    · rw [nearestWhole, Nat.mul_assoc, hScale]

/-- An integer that is a multiple of a high enough power of two is a multiple of the gap at its
size. -/
theorem wholeGap_dvd_of_mul_eq {significand exponent : Nat} (hSignificand : significand < 2 ^ 53)
    (h : significand * 2 ^ exponent = n * unitsOfOne) : wholeGap n ∣ n := by
  rcases Nat.le_total n.log2 52 with hSmall | hLarge
  · rw [wholeGap_of_log2_le hSmall]
    exact Nat.one_dvd n
  · have hn : n ≠ 0 := by
      rintro rfl
      exact absurd hLarge (by decide)
    have hExponent : n.log2 + 1074 < 53 + exponent := by
      refine (Nat.pow_lt_pow_iff_right (by decide : 1 < 2)).mp ?_
      calc 2 ^ (n.log2 + 1074) = 2 ^ n.log2 * unitsOfOne := (two_pow_mul_unitsOfOne rfl).symm
        _ ≤ n * unitsOfOne := Nat.mul_le_mul_right _ (Nat.log2_self_le hn)
        _ = significand * 2 ^ exponent := h.symm
        _ < 2 ^ 53 * 2 ^ exponent := Nat.mul_lt_mul_of_pos_right hSignificand (Nat.two_pow_pos _)
        _ = 2 ^ (53 + exponent) := (Nat.pow_add ..).symm
    have hScaled : wholeGap n * unitsOfOne ∣ n * unitsOfOne := by
      rw [← h, wholeGap, two_pow_mul_unitsOfOne rfl]
      exact Nat.dvd_mul_left_of_dvd (Nat.pow_dvd_pow 2 (by omega)) _
    exact Nat.dvd_of_mul_dvd_mul_right unitsOfOne_pos hScaled

end Whole

/-- A number denotes an integer: it is finite, and its value is the integer. -/
def Denotes (x : Binary64) (n : Int) : Prop :=
  x.isNaN = false ∧ x.isInfinite = false ∧ x.units = n * unitsOfOne

/-- The integer nearest to one of either sign. -/
def nearestInteger (n : Int) : Int :=
  if n < 0 then -(nearestWhole n.natAbs : Int) else nearestWhole n.natAbs

section Integer

variable {m n : Int} {x : Binary64} {pattern : Nat}

theorem nearestInteger_mono (h : m ≤ n) : nearestInteger m ≤ nearestInteger n := by
  unfold nearestInteger
  split <;> split
  · have hWhole := nearestWhole_mono (show n.natAbs ≤ m.natAbs by omega)
    omega
  · omega
  · omega
  · have hWhole := nearestWhole_mono (show m.natAbs ≤ n.natAbs by omega)
    omega

/-- A pattern without its sign, and the same with it. -/
theorem units_of_pattern (h : pattern < 2 ^ 63) :
    Binary64.units ⟨pattern.toUInt64⟩ = patternMagnitude pattern ∧
      Binary64.units ⟨(2 ^ 63 + pattern).toUInt64⟩ = -(patternMagnitude pattern : Int) := by
  have hBits : pattern.toUInt64.toNat = pattern := Nat.mod_eq_of_lt (by omega)
  have hSigned : (2 ^ 63 + pattern).toUInt64.toNat = 2 ^ 63 + pattern :=
    Nat.mod_eq_of_lt (by omega)
  constructor
  · have hPositive : Binary64.negative ⟨pattern.toUInt64⟩ = false := by
      simp only [negative, hBits, decide_eq_false_iff_not]
      omega
    rw [units, hPositive, magnitude_eq, unsignedPattern, hBits, Nat.mod_eq_of_lt h]
    rfl
  · have hNegative : Binary64.negative ⟨(2 ^ 63 + pattern).toUInt64⟩ = true := by
      simp only [negative, hSigned, decide_eq_true_eq]
      omega
    rw [units, hNegative, magnitude_eq, unsignedPattern, hSigned, Nat.add_mod_left,
      Nat.mod_eq_of_lt h]
    rfl

theorem isInfinite_eq_false_of_lt (h : x.unsignedPattern < 2047 * 2 ^ 52) :
    x.isInfinite = false := by
  simp only [isInfinite, exponentField_eq, fraction_eq, Bool.and_eq_false_iff, beq_eq_false_iff_ne]
  omega

/-- The number made of an integer denotes the nearest integer. -/
theorem denotes_ofInt (hSize : n.natAbs < 2 ^ 64) : (ofInt n).Denotes (nearestInteger n) := by
  by_cases hZero : n = 0
  · subst hZero
    refine ⟨by decide, by decide, ?_⟩
    rw [show nearestInteger 0 = 0 from rfl, Int.zero_mul]
    decide
  · have hWhole : n.natAbs ≠ 0 := by omega
    have hLog := (Nat.log2_lt hWhole).mpr hSize
    obtain ⟨significand, hLow, hHigh, hPattern, hMagnitude⟩ :=
      exists_nearestPattern_eq hWhole (by omega)
    have hFinite : nearestPattern n.natAbs 1 < 2047 * 2 ^ 52 := by omega
    have hValue : patternMagnitude (nearestPattern n.natAbs 1) =
        nearestWhole n.natAbs * unitsOfOne := by
      rw [hPattern, patternMagnitude_add hLow hHigh, hMagnitude]
    obtain ⟨hUnits, hSigned⟩ := units_of_pattern (show nearestPattern n.natAbs 1 < 2 ^ 63 by omega)
    refine ⟨isNaN_ofInt n, isInfinite_eq_false_of_lt ?_, ?_⟩
    · unfold ofInt ofRatio unsignedPattern
      rw [if_neg hWhole]
      split <;> rw [Nat.toUInt64, UInt64.toNat_ofNat'] <;> omega
    · unfold ofInt ofRatio nearestInteger
      rw [if_neg hWhole]
      split
      · rw [hSigned, hValue, Int.natCast_mul, Int.neg_mul]
      · rw [hUnits, hValue, Int.natCast_mul]

theorem compare_mul_right {a b scale : Int} (hScale : 0 < scale) :
    compare (a * scale) (b * scale) = compare a b := by
  cases h : compare a b with
  | lt =>
      have hLess := Int.mul_lt_mul_of_pos_right (Std.compare_eq_lt.mp h) hScale
      exact Std.compare_eq_lt.mpr hLess
  | eq =>
      rw [Std.LawfulEqCmp.eq_of_compare h]
      exact Std.ReflCmp.compare_self
  | gt =>
      have hLess := Int.mul_lt_mul_of_pos_right (Std.compare_eq_gt.mp h) hScale
      exact Std.compare_eq_gt.mpr hLess

/-- Numbers of integers are in the order of the nearest integers. -/
theorem order_ofInt (hm : m.natAbs < 2 ^ 64) (hn : n.natAbs < 2 ^ 64) :
    (ofInt m).order (ofInt n) = compare (nearestInteger m) (nearestInteger n) := by
  obtain ⟨-, -, hmUnits⟩ := denotes_ofInt hm
  obtain ⟨-, -, hnUnits⟩ := denotes_ofInt hn
  rw [order, isNaN_ofInt, isNaN_ofInt, hmUnits, hnUnits]
  exact compare_mul_right (Int.natCast_pos.mpr unitsOfOne_pos)

theorem equal_ofInt_iff (hm : m.natAbs < 2 ^ 64) (hn : n.natAbs < 2 ^ 64) :
    (ofInt m).equal (ofInt n) = true ↔ nearestInteger m = nearestInteger n := by
  rw [← order_eq_iff_equal, order_ofInt hm hn]
  exact Std.LawfulEqCmp.compare_eq_iff_eq

theorem natAbs_units (x : Binary64) : x.units.natAbs = x.magnitude := by
  unfold units
  split <;> omega

/-- Rounding an integer that some number denotes changes nothing. -/
theorem Denotes.nearestInteger_eq (h : x.Denotes n) : nearestInteger n = n := by
  obtain ⟨-, -, hUnits⟩ := h
  have hMagnitude : x.magnitude = n.natAbs * unitsOfOne := by
    rw [← natAbs_units, hUnits, Int.natAbs_mul, Int.natAbs_natCast]
  have hFraction : x.fraction < 2 ^ 52 := Nat.mod_lt _ (by decide)
  have hDvd : wholeGap n.natAbs ∣ n.natAbs := by
    rw [magnitude] at hMagnitude
    split at hMagnitude
    · have hScaled : x.fraction * 2 ^ 0 = n.natAbs * unitsOfOne := by
        rwa [Nat.pow_zero, Nat.mul_one]
      exact wholeGap_dvd_of_mul_eq (by omega) hScaled
    · exact wholeGap_dvd_of_mul_eq (by omega) hMagnitude
  unfold nearestInteger
  rw [nearestWhole_eq_of_dvd hDvd]
  split <;> omega

/-- Some number denotes an integer exactly if rounding does not change it. -/
theorem exists_denotes_iff (hn : n.natAbs < 2 ^ 64) :
    (∃ x : Binary64, x.Denotes n) ↔ nearestInteger n = n := by
  refine ⟨fun ⟨_, hDenotes⟩ => hDenotes.nearestInteger_eq, fun hSame => ⟨ofInt n, ?_⟩⟩
  have hDenotes := denotes_ofInt hn
  rwa [hSame] at hDenotes

theorem nearestInteger_nearestInteger (hn : n.natAbs < 2 ^ 64) :
    nearestInteger (nearestInteger n) = nearestInteger n :=
  (denotes_ofInt hn).nearestInteger_eq

/-- Between an integer and what it is rounded to, all are rounded to that. -/
theorem nearestInteger_eq_of_between (hm : m.natAbs < 2 ^ 64)
    (h : m ≤ n ∧ n ≤ nearestInteger m ∨ nearestInteger m ≤ n ∧ n ≤ m) :
    nearestInteger n = nearestInteger m := by
  have hSelf := nearestInteger_nearestInteger hm
  rcases h with ⟨hFrom, hTo⟩ | ⟨hFrom, hTo⟩
  · have hLow := nearestInteger_mono hFrom
    have hHigh := nearestInteger_mono hTo
    omega
  · have hLow := nearestInteger_mono hFrom
    have hHigh := nearestInteger_mono hTo
    omega

/-- Integers of at most 53 bits are not rounded. -/
theorem nearestInteger_of_le (h : n.natAbs ≤ 2 ^ 53) : nearestInteger n = n := by
  have hWhole : nearestWhole n.natAbs = n.natAbs := by
    rcases Nat.lt_or_eq_of_le h with hLess | hLast
    · refine nearestWhole_of_log2_le ?_
      by_cases hZero : n.natAbs = 0
      · rw [hZero]
        decide
      · exact Nat.lt_succ_iff.mp ((Nat.log2_lt hZero).mpr hLess)
    · rw [hLast]
      decide
  unfold nearestInteger
  rw [hWhole]
  split <;> omega

end Integer

end IndexedTable.Binary64

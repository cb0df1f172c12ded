import IndexedTable.Proofs.FloatOrder
import IndexedTable.Value.Coercion

/-! What a conversion leaves: a value of the type asked for, or null, and never a not-a-number
pattern out of something else. -/

namespace IndexedTable

namespace Binary64

theorem nearestPattern_le (numerator denominator : Nat) :
    nearestPattern numerator denominator ≤ 2047 * 2 ^ 52 :=
  Nat.min_le_right _ _

/-- Integers are numbers, however far they are rounded. -/
theorem isNaN_ofInt (n : Int) : (ofInt n).isNaN = false := by
  have hPattern := nearestPattern_le n.natAbs 1
  rw [Bool.eq_false_iff, ne_eq, isNaN_iff]
  unfold ofInt ofRatio unsignedPattern
  split
  · rw [Nat.toUInt64, UInt64.toNat_ofNat']
    omega
  · split
    · decide
    · rw [Nat.toUInt64, UInt64.toNat_ofNat']
      omega

end Binary64

namespace Value

/-- A value that a column of the type can hold: one of the type, or null. -/
def Fits (type : DataType) (value : Value) : Prop :=
  value = .null ∨ value.dataType? = some type

/-- A value that fits a type is not changed by conversion to it. -/
theorem coerce?_of_fits {type : DataType} {value : Value} (hFits : value.Fits type) :
    value.coerce? type = some value := by
  rcases hFits with rfl | hType
  · rfl
  · cases value <;> cases hType <;> rfl

/-- Whether the value is a not-a-number pattern. -/
def isNaN : Value → Bool
  | .float64 x => x.isNaN
  | _ => false

/-- A conversion leaves the value alone or makes one of the type; a floating-point number it makes
comes from an integer. -/
theorem coerce?_cases {value coerced : Value} {type : DataType}
    (h : value.coerce? type = some coerced) :
    (coerced = value ∧ value.Fits type) ∨
      (coerced.dataType? = some type ∧ ∀ x, coerced = .float64 x → ∃ n : Int, x = .ofInt n) := by
  unfold coerce? at h
  split at h
  case h_1 =>
      cases h
      exact .inl ⟨rfl, .inl rfl⟩
  case h_2 | h_3 | h_6 | h_8 =>
      cases h
      exact .inr ⟨rfl, by simp⟩
  case h_4 | h_7 =>
      cases h
      exact .inr ⟨rfl, fun x hx => ⟨_, (Value.float64.inj hx).symm⟩⟩
  case h_5 =>
      obtain ⟨n, -, rfl⟩ := Option.map_eq_some_iff.mp h
      exact .inr ⟨rfl, by simp⟩
  case h_9 =>
      split at h
      · cases h
        exact .inl ⟨rfl, .inr ‹_›⟩
      · cases h

theorem fits_of_coerce? {value coerced : Value} {type : DataType}
    (h : value.coerce? type = some coerced) : coerced.Fits type := by
  rcases coerce?_cases h with ⟨rfl, hFits⟩ | ⟨hType, -⟩
  · exact hFits
  · exact .inr hType

/-- Conversion keeps numbers apart from not-a-number patterns. -/
theorem isNaN_of_coerce? {value coerced : Value} {type : DataType}
    (hValue : value.isNaN = false) (h : value.coerce? type = some coerced) :
    coerced.isNaN = false := by
  rcases coerce?_cases h with ⟨rfl, -⟩ | ⟨-, hFloat⟩
  · exact hValue
  · cases coerced with
    | float64 x =>
        obtain ⟨n, rfl⟩ := hFloat x rfl
        exact Binary64.isNaN_ofInt n
    | _ => rfl

/-- A text or binary column keeps values as they are. -/
theorem eq_of_coerce? {value coerced : Value} {type : DataType}
    (hType : type.supportsPartialMatch = true) (h : value.coerce? type = some coerced) :
    coerced = value := by
  cases type with
  | text | bytes => cases value <;> simp_all [coerce?, dataType?]
  | _ => cases hType

end Value

end IndexedTable

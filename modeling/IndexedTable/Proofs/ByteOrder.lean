import IndexedTable.Key.Basic

/-! Byte strings whose order is settled before either of them ends. Only such strings keep their
order when more bytes follow, so the segments of a key must be of this kind; plain lexicographic
comparison also orders a string before its extensions, and that order does not survive. -/

namespace IndexedTable

/-- The order of two byte strings as far as it does not depend on what follows them. It is missing
when one of them is a proper beginning of the other. -/
def settled? : List UInt8 → List UInt8 → Option Ordering
  | [], [] => some .eq
  | [], _ :: _ | _ :: _, [] => none
  | x :: xs, y :: ys => if x = y then settled? xs ys else some (compare x y)

@[simp] theorem settled?_cons_self (x : UInt8) (xs ys : List UInt8) :
    settled? (x :: xs) (x :: ys) = settled? xs ys := by
  simp [settled?]

theorem settled?_cons_of_ne {x y : UInt8} (h : x ≠ y) (xs ys : List UInt8) :
    settled? (x :: xs) (y :: ys) = some (compare x y) := by
  simp [settled?, h]

@[simp] theorem settled?_append_left (common xs ys : List UInt8) :
    settled? (common ++ xs) (common ++ ys) = settled? xs ys := by
  induction common with
  | nil => rfl
  | cons x common ih => simpa using ih

theorem settled?_self (xs : List UInt8) : settled? xs xs = some .eq := by
  simpa [settled?] using settled?_append_left xs [] []

/-- What follows counts only where the strings themselves are the same. -/
theorem settled?_append {o : Ordering} {a b : List UInt8} (h : settled? a b = some o)
    (xs ys : List UInt8) :
    settled? (a ++ xs) (b ++ ys) = if o = .eq then settled? xs ys else some o := by
  induction a generalizing b with
  | nil =>
      cases b with
      | nil =>
          obtain rfl : Ordering.eq = o := by simpa [settled?] using h
          rfl
      | cons y b => simp [settled?] at h
  | cons x a ih =>
      cases b with
      | nil => simp [settled?] at h
      | cons y b =>
          by_cases hxy : x = y
          · subst y
            simpa using ih (by simpa using h)
          · obtain rfl : compare x y = o := by simpa [settled?_cons_of_ne hxy] using h
            have hNe : compare x y ≠ .eq := fun he => hxy (Std.LawfulEqCmp.eq_of_compare he)
            simp [settled?_cons_of_ne hxy, hNe]

/-- Strings in a settled order compare the same way whatever follows them, and what follows
decides between equal ones. -/
theorem compare_append_of_settled {o : Ordering} {a b : List UInt8} (h : settled? a b = some o)
    (xs ys : List UInt8) : compare (a ++ xs) (b ++ ys) = o.then (compare xs ys) := by
  induction a generalizing b with
  | nil =>
      cases b with
      | nil =>
          obtain rfl : Ordering.eq = o := by simpa [settled?] using h
          rfl
      | cons y b => simp [settled?] at h
  | cons x a ih =>
      cases b with
      | nil => simp [settled?] at h
      | cons y b =>
          rw [List.cons_append, List.cons_append, List.compare_cons_cons]
          by_cases hxy : x = y
          · subst y
            simpa [Std.ReflCmp.compare_self] using ih (by simpa using h)
          · obtain rfl : compare x y = o := by simpa [settled?_cons_of_ne hxy] using h
            have hNe : compare x y ≠ .eq := fun he => hxy (Std.LawfulEqCmp.eq_of_compare he)
            cases hc : compare x y <;> simp_all

theorem compare_of_settled {o : Ordering} {a b : List UInt8} (h : settled? a b = some o) :
    compare a b = o := by
  have := compare_append_of_settled h [] []
  simpa [List.compare_nil_nil] using this

theorem compare_append_left (common xs ys : List UInt8) :
    compare (common ++ xs) (common ++ ys) = compare xs ys := by
  simpa using compare_append_of_settled (settled?_self common) xs ys

theorem settled?_swap (a b : List UInt8) :
    settled? b a = (settled? a b).map Ordering.swap := by
  induction a generalizing b with
  | nil => cases b <;> rfl
  | cons x a ih =>
      cases b with
      | nil => rfl
      | cons y b =>
          by_cases hxy : x = y
          · subst y
            simpa using ih b
          · have hSwap : compare y x = (compare x y).swap := Std.OrientedCmp.eq_swap
            simp [settled?_cons_of_ne hxy, settled?_cons_of_ne (Ne.symm hxy), hSwap]

theorem compare_toNat (x y : UInt8) : compare x y = compare x.toNat y.toNat := by
  cases h : compare x y with
  | lt => exact (Nat.compare_eq_lt.mpr (UInt8.lt_iff_toNat_lt.mp (Std.compare_eq_lt.mp h))).symm
  | eq => simp [Std.LawfulEqCmp.eq_of_compare h]
  | gt => exact (Nat.compare_eq_gt.mpr (UInt8.lt_iff_toNat_lt.mp (Std.compare_eq_gt.mp h))).symm

theorem complement_lt_complement {x y : UInt8} : ~~~x < ~~~y ↔ y < x := by
  have hx := x.toNat_lt
  have hy := y.toNat_lt
  simp only [UInt8.lt_iff_toNat_lt, UInt8.toNat_not, UInt8.size]
  omega

theorem compare_complement (x y : UInt8) : compare (~~~x) (~~~y) = (compare x y).swap := by
  cases h : compare x y with
  | lt => exact Std.compare_eq_gt.mpr (complement_lt_complement.mpr (Std.compare_eq_lt.mp h))
  | eq => simp [Std.LawfulEqCmp.eq_of_compare h]
  | gt => exact Std.compare_eq_lt.mpr (complement_lt_complement.mpr (Std.compare_eq_gt.mp h))

/-- Complementing every byte reverses a settled order. The order of a string and its extension is
not reversed, which is why segments must not be of that kind. -/
theorem settled?_complement (a b : List UInt8) :
    settled? (a.map (~~~ ·)) (b.map (~~~ ·)) = (settled? a b).map Ordering.swap := by
  induction a generalizing b with
  | nil => cases b <;> rfl
  | cons x a ih =>
      cases b with
      | nil => rfl
      | cons y b =>
          by_cases hxy : x = y
          · subst y
            simpa using ih b
          · have hNot : ~~~x ≠ ~~~y := fun h => hxy (by simpa using h)
            simp [settled?_cons_of_ne hxy, settled?_cons_of_ne hNot, compare_complement]

end IndexedTable

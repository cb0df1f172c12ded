import IndexedTable.Value.Order

/-! Equality and order of values seen from either side. Equality does not depend on which value
stands first, and the order is reversed when two values change places. -/

namespace IndexedTable

namespace Binary64

theorem equal_comm (x y : Binary64) : x.equal y = y.equal x := by
  unfold equal
  cases x.isNaN <;> cases y.isNaN <;> simp [Bool.beq_comm]

theorem order_swap (x y : Binary64) : y.order x = (x.order y).swap := by
  have hUnits : compare y.units x.units = (compare x.units y.units).swap := Std.OrientedCmp.eq_swap
  unfold order
  cases x.isNaN <;> cases y.isNaN
  case false.false => exact hUnits
  all_goals rfl

end Binary64

namespace Value

mutual

theorem equal_comm : ∀ a b : Value, a.equal b = b.equal a
  | list as, b => by
      cases b with
      | list bs => simpa [equal] using equalItems_comm as bs
      | _ => rfl
  | float64 x, b => by
      cases b with
      | float64 y => exact Binary64.equal_comm x y
      | _ => rfl
  | null, b | boolean _, b | int32 _, b | int64 _, b | text _, b | dateTime _, b | bytes _, b => by
      cases b <;> simp [equal, Bool.beq_comm]

theorem equalItems_comm : ∀ as bs : List Value, equalItems as bs = equalItems bs as
  | [], bs => by cases bs <;> rfl
  | a :: as, bs => by
      cases bs with
      | nil => rfl
      | cons b bs => rw [equalItems, equalItems, equal_comm a b, equalItems_comm as bs]

end

mutual

theorem order_swap : ∀ a b : Value, b.order a = (a.order b).swap
  | list as, b => by
      cases b with
      | list bs => simpa [order] using orderItems_swap as bs
      | _ => exact (Nat.compare_swap ..).symm
  | float64 x, b => by
      cases b with
      | float64 y => exact Binary64.order_swap x y
      | _ => exact (Nat.compare_swap ..).symm
  | null, b | boolean _, b | int32 _, b | int64 _, b | text _, b | dateTime _, b | bytes _, b => by
      cases b <;> simp only [order] <;> exact Std.OrientedCmp.eq_swap

theorem orderItems_swap : ∀ as bs : List Value, orderItems bs as = (orderItems as bs).swap
  | [], bs => by cases bs <;> rfl
  | a :: as, bs => by
      cases bs with
      | nil => rfl
      | cons b bs =>
          rw [orderItems, orderItems, order_swap a b, orderItems_swap as bs, Ordering.swap_then]

end

end Value

end IndexedTable

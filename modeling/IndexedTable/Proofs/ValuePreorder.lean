import IndexedTable.Proofs.KeyOrder
import IndexedTable.Proofs.ValueOrder

/-! The order of values as a total preorder, and equality as an equivalence that refines it.
Integers of both widths are of one kind; between kinds the order is that of their places, and within
one it is an order of numbers, of bytes, or of the items of lists. Sorting follows. -/

namespace IndexedTable

/-- Where neither of two steps descends, they compare together as the first one that rises. -/
theorem compare_then_of_not_gt {α : Type} {cmp : α → α → Ordering} [Std.TransCmp cmp] {a b c : α}
    (hFirst : cmp a b ≠ .gt) (hSecond : cmp b c ≠ .gt) : cmp a c = (cmp a b).then (cmp b c) := by
  cases hab : cmp a b with
  | gt => exact absurd hab hFirst
  | eq => exact Std.TransCmp.congr_left hab
  | lt =>
      have hRest : (cmp b c).isLE = true := Ordering.isLE_iff_ne_gt.mpr hSecond
      exact Std.TransCmp.lt_of_lt_of_isLE hab hRest

namespace Binary64

/-- Numbers come before not-a-number patterns, and compare by what they denote. -/
theorem order_eq_compareLex : order =
    compareLex (compareOn isNaN) (compareOn fun x => if x.isNaN then 0 else x.units) := by
  funext x y
  simp only [order, compareLex, compareOn]
  cases x.isNaN <;> cases y.isNaN
  case false.false | true.true => simp
  all_goals rfl

instance : Std.TransCmp order := by
  rw [order_eq_compareLex]
  infer_instance

theorem equal_self (x : Binary64) : x.equal x = true :=
  (order_eq_iff_equal x x).mp Std.ReflCmp.compare_self

theorem equal_trans {x y z : Binary64} (hFirst : x.equal y = true) (hSecond : y.equal z = true) :
    x.equal z = true := by
  rw [← order_eq_iff_equal] at *
  exact Std.TransCmp.eq_trans hFirst hSecond

end Binary64

namespace Value

/-- The place of a value's kind in the order. Integers of both widths are of one kind. -/
def kind : Value → Nat
  | null => 0
  | boolean _ => 1
  | int32 _ | int64 _ => 2
  | float64 _ => 3
  | text _ => 4
  | dateTime _ => 5
  | bytes _ => 6
  | list _ => 7

theorem order_of_kind_ne {a b : Value} (hKinds : a.kind ≠ b.kind) :
    a.order b = compare a.kind b.kind := by
  cases a <;> cases b <;> first | rfl | exact absurd rfl hKinds

theorem order_eq_lt_of_kind_lt {a b : Value} (hKinds : a.kind < b.kind) : a.order b = .lt :=
  (order_of_kind_ne (Nat.ne_of_lt hKinds)).trans (Nat.compare_eq_lt.mpr hKinds)

theorem kind_le_of_order {a b : Value} (hOrder : a.order b ≠ .gt) : a.kind ≤ b.kind := by
  by_contra hKinds
  rw [order_of_kind_ne (by omega)] at hOrder
  exact hOrder (Nat.compare_eq_gt.mpr (by omega))

/-- A step from one kind to a later one decides. -/
theorem order_then_of_kind_ne {a b c : Value} (hFirst : a.order b ≠ .gt) (hSecond : b.order c ≠ .gt)
    (hKinds : ¬ (a.kind = b.kind ∧ b.kind = c.kind)) : a.order c = (a.order b).then (b.order c) := by
  have hFirstKinds := kind_le_of_order hFirst
  have hSecondKinds := kind_le_of_order hSecond
  rw [order_eq_lt_of_kind_lt (show a.kind < c.kind by omega)]
  by_cases hLess : a.kind < b.kind
  · rw [order_eq_lt_of_kind_lt hLess]
    rfl
  · rw [order_eq_lt_of_kind_lt (show b.kind < c.kind by omega)]
    cases hOrder : a.order b with
    | gt => exact absurd hOrder hFirst
    | lt | eq => rfl

theorem order_then_of_ne_list {a b c : Value} (hScalar : ∀ items, a ≠ list items)
    (hFirst : a.order b ≠ .gt) (hSecond : b.order c ≠ .gt) :
    a.order c = (a.order b).then (b.order c) := by
  by_cases hKinds : a.kind = b.kind ∧ b.kind = c.kind
  · obtain ⟨hab, hbc⟩ := hKinds
    cases a with
    | list items => exact absurd rfl (hScalar items)
    | null =>
        cases b <;> cases hab
        cases c <;> cases hbc
        rfl
    | _ =>
        cases b <;> cases hab <;> cases c <;> cases hbc <;> simp only [order] at hFirst hSecond ⊢ <;>
          exact compare_then_of_not_gt hFirst hSecond
  · exact order_then_of_kind_ne hFirst hSecond hKinds

theorem then_then_of_not_gt {first second firstRest secondRest rest : Ordering}
    (hFirst : first.then firstRest ≠ .gt) (hSecond : second.then secondRest ≠ .gt)
    (hRest : first = .eq → second = .eq → rest = firstRest.then secondRest) :
    (first.then second).then rest = (first.then firstRest).then (second.then secondRest) := by
  cases first <;> cases second <;> cases firstRest <;> simp_all

mutual

/-- Where neither of two steps descends, they compare together as the first one that rises. -/
theorem order_then : ∀ a b c : Value, a.order b ≠ .gt → b.order c ≠ .gt →
    a.order c = (a.order b).then (b.order c)
  | list as, b, c => by
      intro hFirst hSecond
      by_cases hKinds : (list as).kind = b.kind ∧ b.kind = c.kind
      · obtain ⟨hab, hbc⟩ := hKinds
        cases b <;> cases hab
        cases c <;> cases hbc
        exact orderItems_then as _ _ hFirst hSecond
      · exact order_then_of_kind_ne hFirst hSecond hKinds
  | null, b, c | boolean _, b, c | int32 _, b, c | int64 _, b, c | float64 _, b, c | text _, b, c
  | dateTime _, b, c | bytes _, b, c => order_then_of_ne_list (by simp)

theorem orderItems_then : ∀ as bs cs : List Value, orderItems as bs ≠ .gt →
    orderItems bs cs ≠ .gt → orderItems as cs = (orderItems as bs).then (orderItems bs cs)
  | [], bs, cs => by cases bs <;> cases cs <;> simp [orderItems]
  | a :: as, [], cs => fun hFirst => absurd rfl hFirst
  | a :: as, b :: bs, [] => fun _ hSecond => absurd rfl hSecond
  | a :: as, b :: bs, c :: cs => by
      -- Transitivity alone is no induction hypothesis here: the rest of the lists counts only where
      -- both pairs of items tie, so it matters which of the two steps rises.
      intro hFirst hSecond
      rw [orderItems] at hFirst hSecond
      have hHead := order_then a b c
        (fun hMore => hFirst (by simp [hMore])) (fun hMore => hSecond (by simp [hMore]))
      rw [orderItems, orderItems, orderItems, hHead]
      refine then_then_of_not_gt hFirst hSecond fun hab hbc => ?_
      refine orderItems_then as bs cs ?_ ?_
      · simpa [hab] using hFirst
      · simpa [hbc] using hSecond

end

instance : Std.TransCmp order where
  eq_swap {a b} := order_swap b a
  isLE_trans {a b c} hFirst hSecond := by
    rw [Ordering.isLE_iff_ne_gt] at *
    rw [order_then a b c hFirst hSecond]
    cases hab : a.order b <;> simp_all

mutual

theorem equal_self : ∀ a : Value, a.equal a = true
  | list items => equalItems_self items
  | float64 x => x.equal_self
  | null | boolean _ | int32 _ | int64 _ | text _ | dateTime _ | bytes _ => by simp [equal]

theorem equalItems_self : ∀ items : List Value, equalItems items items = true
  | [] => rfl
  | item :: rest => by rw [equalItems, equal_self item, equalItems_self rest]; rfl

end

/-- Values of most types are equal only to themselves. -/
theorem eq_of_equal {a b : Value} (hFloat : ∀ x, a ≠ float64 x) (hList : ∀ items, a ≠ list items)
    (hEqual : a.equal b = true) : a = b := by
  cases a <;> cases b <;> simp_all [equal]

theorem equal_trans_of_ne_list {a b c : Value} (hScalar : ∀ items, a ≠ list items)
    (hFirst : a.equal b = true) (hSecond : b.equal c = true) : a.equal c = true := by
  cases a with
  | list items => exact absurd rfl (hScalar items)
  | float64 x =>
      cases b with
      | float64 y =>
          cases c with
          | float64 z => exact Binary64.equal_trans hFirst hSecond
          | _ => cases hSecond
      | _ => cases hFirst
  | _ => exact eq_of_equal (by simp) (by simp) hFirst ▸ hSecond

mutual

theorem equal_trans : ∀ a b c : Value, a.equal b = true → b.equal c = true → a.equal c = true
  | list as, b, c => by
      intro hFirst hSecond
      cases b with
      | list bs =>
          cases c with
          | list cs => exact equalItems_trans as bs cs hFirst hSecond
          | _ => cases hSecond
      | _ => cases hFirst
  | null, b, c | boolean _, b, c | int32 _, b, c | int64 _, b, c | float64 _, b, c | text _, b, c
  | dateTime _, b, c | bytes _, b, c => equal_trans_of_ne_list (by simp)

theorem equalItems_trans : ∀ as bs cs : List Value, equalItems as bs = true →
    equalItems bs cs = true → equalItems as cs = true
  | [], bs, cs => by cases bs <;> simp [equalItems]
  | a :: as, [], cs => by simp [equalItems]
  | a :: as, b :: bs, [] => by simp [equalItems]
  | a :: as, b :: bs, c :: cs => by
      simp only [equalItems, Bool.and_eq_true]
      exact fun hFirst hSecond => ⟨equal_trans a b c hFirst.1 hSecond.1,
        equalItems_trans as bs cs hFirst.2 hSecond.2⟩

end

mutual

/-- Equal values are at the same place of the order. -/
theorem order_eq_of_equal : ∀ a b : Value, a.equal b = true → a.order b = .eq
  | list as, b => by
      intro hEqual
      cases b with
      | list bs => exact orderItems_eq_of_equalItems as bs hEqual
      | _ => cases hEqual
  | float64 x, b => by
      intro hEqual
      cases b with
      | float64 y => exact (Binary64.order_eq_iff_equal x y).mpr hEqual
      | _ => cases hEqual
  | null, b | boolean _, b | int32 _, b | int64 _, b | text _, b | dateTime _, b | bytes _, b =>
      fun hEqual => eq_of_equal (by simp) (by simp) hEqual ▸ Std.ReflCmp.compare_self

theorem orderItems_eq_of_equalItems : ∀ as bs : List Value, equalItems as bs = true →
    orderItems as bs = .eq
  | [], bs => by cases bs <;> simp [equalItems, orderItems]
  | a :: as, [] => by simp [equalItems]
  | a :: as, b :: bs => by
      simp only [equalItems, orderItems, Bool.and_eq_true, Ordering.then_eq_eq]
      exact fun hEqual => ⟨order_eq_of_equal a b hEqual.1,
        orderItems_eq_of_equalItems as bs hEqual.2⟩

end

theorem isLE_total (a b : Value) : ((a.order b).isLE || (b.order a).isLE) = true := by
  rw [order_swap a b]
  cases a.order b <;> rfl

theorem pairwise_sort (values : List Value) :
    (sort values).Pairwise fun a b => (a.order b).isLE = true :=
  List.pairwise_mergeSort (fun _ _ _ => Std.TransCmp.isLE_trans) isLE_total values

/-- Values in ascending order keep their places relative to each other. -/
theorem sublist_sort {kept values : List Value} (hKept : kept.Sublist values)
    (hAscending : kept.Pairwise fun a b => (a.order b).isLE = true) : kept.Sublist (sort values) :=
  List.sublist_mergeSort (fun _ _ _ => Std.TransCmp.isLE_trans) isLE_total hAscending hKept

/-- The order is a total preorder of all values, lists and every pattern of a floating-point number
included, and equality is an equivalence within its classes. A sorted list has the same values in
ascending order, and those that were so before keep their places relative to each other. -/
theorem total_preorder_and_sort :
    (∀ a : Value, a.order a = .eq) ∧
    (∀ a b : Value, b.order a = (a.order b).swap) ∧
    (∀ a b c : Value, a.order b ≠ .gt → b.order c ≠ .gt → a.order c ≠ .gt) ∧
    (Equivalence fun a b : Value => a.equal b = true) ∧
    (∀ a b : Value, a.equal b = true → a.order b = .eq) ∧
    ∀ values : List Value, (sort values).Perm values ∧
      ((sort values).Pairwise fun a b => a.order b ≠ .gt) ∧
      ∀ kept : List Value, kept.Sublist values → (kept.Pairwise fun a b => a.order b ≠ .gt) →
        kept.Sublist (sort values) := by
  refine ⟨fun a => Std.ReflCmp.compare_self, order_swap, fun a b c => ?_,
    ⟨equal_self, fun {a b} hEqual => ?_, fun {a b c} => equal_trans a b c⟩, order_eq_of_equal,
    fun values => ⟨List.mergeSort_perm _ _, ?_, fun kept => ?_⟩⟩
  · simp only [← Ordering.isLE_iff_ne_gt]
    exact Std.TransCmp.isLE_trans
  · exact (equal_comm b a).trans hEqual
  · simpa only [← Ordering.isLE_iff_ne_gt] using pairwise_sort values
  · simp only [← Ordering.isLE_iff_ne_gt]
    exact sublist_sort

/-- Integers of both widths within lists, not-a-number patterns of both signs and the two zeros. -/
theorem total_preorder_and_sort_of_nested :
    let nan : Value := .float64 ⟨0x7ff8000000000000⟩
    let other : Value := .float64 ⟨0xfff8000000000001⟩
    let a : Value := .list [.int64 1, .list [nan]]
    let b : Value := .list [.int32 1, .list [other]]
    let c : Value := .list [.int64 1, .list [nan], .null]
    let zeros : List Value := [.float64 ⟨0x8000000000000000⟩, .float64 ⟨0⟩]
    (a.order b ≠ .gt ∧ b.order c ≠ .gt ∧ a.order c ≠ .gt) ∧
      ((Value.list [nan]).equal (.list [other]) = true ∧
        (Value.list [other]).order (.list [nan]) = .eq) ∧
      zeros.Sublist (sort [.float64 ⟨0x8000000000000000⟩, .null, .float64 ⟨0⟩]) := by
  intro nan other a b c zeros
  obtain ⟨-, -, hTrans, hEquivalence, hRefines, hSort⟩ := total_preorder_and_sort
  have hFirst : a.order b ≠ .gt := by decide
  have hSecond : b.order c ≠ .gt := by decide
  have hEqual : (Value.list [nan]).equal (.list [other]) = true := by decide
  exact ⟨⟨hFirst, hSecond, hTrans a b c hFirst hSecond⟩,
    ⟨hEqual, hRefines _ _ (hEquivalence.symm hEqual)⟩,
    (hSort _).2.2 zeros (by decide) (by decide)⟩

end Value

end IndexedTable

import Mathlib.Algebra.BigOperators.Group.List.Basic
import Mathlib.Algebra.Order.BigOperators.Group.List
import Mathlib.Algebra.Order.Field.Rat
import Mathlib.Tactic.Linarith
import Mathlib.Tactic.Ring
import IndexedTable.Filter.Estimate
import IndexedTable.Proofs.FilterReuse

/-! The estimate of the size of an index. A share of the index names the entry at that share, whose
rank is the place rounded down; the middle of the entry makes up for half of what rounding loses.
Each place so implies the size up to a deviation of its own, and their mean up to the mean of the
deviations. -/

namespace IndexedTable

namespace Cursor

variable {cursor : Cursor} {number denominator : Nat}

/-- A share of an index below the whole is the place of one of its entries, rounded down. -/
theorem gotoPosition_share (hSome : 0 < cursor.index.size) (hNumber : number < denominator)
    (hWord : cursor.index.size + denominator < 2 ^ 64) :
    ∃ entry ∈ cursor.index.entries.toList,
      cursor.gotoPosition number.toUInt64 denominator.toUInt64 = cursor.land (some entry) ∧
      cursor.index.rank entry = cursor.index.size * number / denominator := by
  have hPlace : cursor.index.size * number / denominator < cursor.index.size :=
    Nat.div_lt_of_lt_mul (Nat.mul_comm denominator _ ▸ Nat.mul_lt_mul_of_pos_left hNumber hSome)
  have hNumerator : number.toUInt64.toNat = number := Nat.mod_eq_of_lt (by omega)
  have hShares : denominator.toUInt64.toNat = denominator := Nat.mod_eq_of_lt (by omega)
  have hZero : denominator.toUInt64 ≠ 0 := by
    intro hZero
    rw [hZero] at hShares
    exact absurd (hShares.symm ▸ hNumber) (Nat.not_lt_zero _)
  have hEntry := List.getElem?_eq_getElem hPlace
  refine ⟨_, List.getElem_mem hPlace, ?_, OrderedIndex.rank_of_nth? hEntry⟩
  rw [gotoPosition, if_neg (not_or.mpr ⟨hSome.ne', hZero⟩)]
  dsimp only
  rw [hNumerator, hShares, Nat.mod_eq_of_lt (by omega), Nat.min_eq_left (by omega)]
  exact congrArg cursor.land hEntry

end Cursor

namespace Filter

/-- By how much the size that a place implies may exceed the true one. -/
def overshoot (number denominator : Nat) : Nat := denominator / (2 * number)

/-- By how much it may fall short. -/
def undershoot (number denominator : Nat) : Nat :=
  (denominator + 2 * number - 3) / (2 * number)

section Deviation

variable {total number denominator places : Nat}

/-- The place is not beyond the share, and the middle of its entry adds half an entry. -/
theorem impliedSize_le (hNumber : 0 < number) :
    impliedSize (total * number / denominator) number denominator ≤
      total + overshoot number denominator := by
  have hBefore := Nat.div_mul_le_self (total * number) denominator
  rw [impliedSize, overshoot, ← Nat.mul_add_div (by omega : 0 < 2 * number)]
  refine Nat.div_le_div_right ?_
  calc (2 * (total * number / denominator) + 1) * denominator
      = 2 * (total * number / denominator * denominator) + denominator := by ring
    _ ≤ 2 * (total * number) + denominator := by omega
    _ = 2 * number * total + denominator := by ring

/-- Rounding the place down loses less than an entry, of which the middle makes good a half, and
rounding the size down less than one more. -/
theorem le_impliedSize (hNumber : 0 < number) (hDenominator : number < denominator) :
    total ≤ impliedSize (total * number / denominator) number denominator +
      undershoot number denominator := by
  have hAfter := Nat.lt_div_mul_add (a := total * number) (by omega : 0 < denominator)
  have hRounded := Nat.lt_div_mul_add (a := (2 * (total * number / denominator) + 1) * denominator)
    (by omega : 0 < 2 * number)
  rw [← Nat.sub_le_iff_le_add', undershoot, Nat.le_div_iff_mul_le (by omega), Nat.sub_mul]
  rw [← impliedSize] at hRounded
  have hMiddle : (2 * (total * number / denominator) + 1) * denominator =
      2 * (total * number / denominator * denominator) + denominator := by ring
  have hTotal : total * (2 * number) = 2 * (total * number) := by ring
  omega

/-- No place deviates by more than half of the number of places. -/
theorem overshoot_le (hNumber : 0 < number) : overshoot number denominator ≤ denominator / 2 :=
  Nat.div_le_div_left (by omega) (by omega)

theorem undershoot_le (hNumber : 0 < number) (hPlaces : number ≤ places) :
    undershoot number (places + 1) ≤ places / 2 := by
  unfold undershoot
  rcases Nat.lt_or_ge 1 places with hSeveral | hOne
  · rw [show places + 1 + 2 * number - 3 = places - 2 + 2 * number by omega,
      Nat.add_div_right _ (by omega)]
    have hLess : (places - 2) / (2 * number) ≤ (places - 2) / 2 :=
      Nat.div_le_div_left (by omega) (by omega)
    omega
  · obtain rfl : number = 1 := by omega
    omega

/-- The sizes that evenly spaced places imply. -/
def impliedSizes (total places : Nat) : List Nat :=
  (List.range' 1 places).map fun number =>
    impliedSize (total * number / (places + 1)) number (places + 1)

theorem sum_impliedSizes_le : (impliedSizes total places).sum ≤
    places * total + ((List.range' 1 places).map (overshoot · (places + 1))).sum := by
  calc (impliedSizes total places).sum
      ≤ ((List.range' 1 places).map fun number =>
          total + overshoot number (places + 1)).sum := by
        refine List.sum_le_sum fun number hNumber => impliedSize_le ?_
        exact (List.mem_range'_1.mp hNumber).1
    _ = places * total + ((List.range' 1 places).map (overshoot · (places + 1))).sum := by
        rw [List.sum_map_add]
        simp

theorem le_sum_impliedSizes : places * total ≤ (impliedSizes total places).sum +
    ((List.range' 1 places).map (undershoot · (places + 1))).sum := by
  calc places * total
      = ((List.range' 1 places).map fun _ => total).sum := by simp
    _ ≤ ((List.range' 1 places).map fun number =>
          impliedSize (total * number / (places + 1)) number (places + 1) +
            undershoot number (places + 1)).sum := by
        refine List.sum_le_sum fun number hNumber => ?_
        obtain ⟨hFirst, hLast⟩ := List.mem_range'_1.mp hNumber
        exact le_impliedSize hFirst (by omega)
    _ = _ := List.sum_map_add

/-- The mean of the implied sizes. -/
def meanSize (total places : Nat) : Nat := max 1 ((impliedSizes total places).sum / places)

theorem meanSize_le (hTotal : 0 < total) (hPlaces : 0 < places) :
    meanSize total places ≤ total + (places + 1) / 2 := by
  have hDeviation : ((List.range' 1 places).map (overshoot · (places + 1))).sum ≤
      places * ((places + 1) / 2) := by
    refine (List.sum_le_card_nsmul _ ((places + 1) / 2) fun deviation hDeviation => ?_).trans ?_
    · obtain ⟨number, hNumber, rfl⟩ := List.mem_map.mp hDeviation
      exact overshoot_le (List.mem_range'_1.mp hNumber).1
    · simp
  have hMean : (impliedSizes total places).sum / places ≤ total + (places + 1) / 2 := by
    refine Nat.div_le_of_le_mul (sum_impliedSizes_le.trans ?_)
    rw [Nat.mul_add]
    exact Nat.add_le_add_left hDeviation _
  exact max_le (by omega) hMean

theorem le_meanSize (hPlaces : 0 < places) :
    total ≤ meanSize total places + places / 2 := by
  have hDeviation : ((List.range' 1 places).map (undershoot · (places + 1))).sum ≤
      places * (places / 2) := by
    refine (List.sum_le_card_nsmul _ (places / 2) fun deviation hDeviation => ?_).trans ?_
    · obtain ⟨number, hNumber, rfl⟩ := List.mem_map.mp hDeviation
      obtain ⟨hFirst, hLast⟩ := List.mem_range'_1.mp hNumber
      exact undershoot_le hFirst (by omega)
    · simp
  have hMean : total - places / 2 ≤ (impliedSizes total places).sum / places := by
    rw [Nat.le_div_iff_mul_le hPlaces, Nat.sub_mul, Nat.mul_comm total, Nat.mul_comm (places / 2)]
    have hBelow := @le_sum_impliedSizes total places
    omega
  have hMax := hMean.trans (le_max_right 1 _)
  rw [← meanSize] at hMax
  omega

theorem cast_meanSize_le (hTotal : 0 < total) (hPlaces : 0 < places) :
    (meanSize total places : ℚ) ≤ total + (places + 1) / 2 := by
  have hAbove := meanSize_le hTotal hPlaces
  have hTwice : 2 * meanSize total places ≤ 2 * total + (places + 1) := by omega
  have hRational : (2 * meanSize total places : ℚ) ≤ 2 * total + (places + 1) := by
    exact_mod_cast hTwice
  linarith

theorem lt_cast_meanSize (hPlaces : 0 < places) :
    (total : ℚ) - (places + 1) / 2 - 1 < meanSize total places := by
  have hBelow := @le_meanSize total places hPlaces
  have hTwice : 2 * total ≤ 2 * meanSize total places + places := by omega
  have hRational : (2 * total : ℚ) ≤ 2 * meanSize total places + places := by
    exact_mod_cast hTwice
  linarith

theorem meanSize_default (hTotal : 0 < total) :
    total ≤ meanSize total defaultSamples + 2 ∧
      meanSize total defaultSamples ≤ total + 1 := by
  have hAbove : (impliedSizes total 8).sum ≤ 8 * total + 8 := sum_impliedSizes_le
  have hBelow : 8 * total ≤ (impliedSizes total 8).sum + 13 := le_sum_impliedSizes
  unfold meanSize defaultSamples
  omega

end Deviation

section Sampling

variable {table : Table} {store : Store} {cursor : Cursor} {slot : Slot} {target : Option String}
  {samples : Nat}

/-- The loop adds up what the places imply, and none of them is missing. -/
theorem sampledSizes_eq {denominator remaining number sum : Nat} (hCursor : cursor.slot = slot)
    (hSome : 0 < slot.index.size) (hWord : slot.index.size + denominator < 2 ^ 64)
    (hNumbers : number + remaining ≤ denominator) :
    (sampledSizes denominator remaining number sum cursor).1 =
      some (sum + ((List.range' number remaining).map fun number =>
        impliedSize (slot.index.size * number / denominator) number denominator).sum) := by
  induction remaining generalizing number sum cursor with
  | zero => rfl
  | succ remaining ih =>
      subst hCursor
      obtain ⟨entry, -, hGoto, hRank⟩ :=
        Cursor.gotoPosition_share hSome (by omega : number < denominator) hWord
      have hRest := @ih (cursor.land (some entry)) (number + 1)
        (sum + impliedSize (cursor.index.rank entry) number denominator) rfl (by omega)
      rw [sampledSizes, hGoto]
      refine hRest.trans ?_
      rw [hRank, List.range'_succ, List.map_cons, List.sum_cons, Nat.add_assoc]
      rfl

/-- The estimate is the mean of what the places imply, where there are any. -/
theorem estimateWhole_eq (hNames : store.indexNames.Nodup) (hCursor : cursor.On store)
    (hSlot : store.slot target = .ok slot) (hWord : slot.index.size + samples < 2 ^ 62) :
    (estimateWhole target samples cursor).1 =
      .ok (if slot.index.size = 0 then 0 else meanSize slot.index.size (max 1 samples)) := by
  obtain ⟨selected, hSelect, hFresh⟩ := hCursor.select_eq_ok hNames hSlot
  obtain rfl : selected.slot = slot := congrArg Cursor.slot hFresh
  have hFirst : selected.first.current.isSome = decide (selected.slot.index.size ≠ 0) := by
    change selected.slot.index.entries.toList.head?.isSome = _
    unfold OrderedIndex.size OrderedSet.size
    cases selected.slot.index.entries.toList <;> rfl
  rw [estimateWhole, hSelect]
  dsimp only
  rw [hFirst]
  rcases Nat.eq_zero_or_pos selected.slot.index.size with hNone | hSome
  · rw [if_neg (by simpa using hNone), if_pos hNone]
  · rw [if_pos (by simpa using hSome.ne'), if_neg hSome.ne']
    have hSum := @sampledSizes_eq selected.first selected.slot (max 1 samples + 1) (max 1 samples) 1
      0 rfl hSome (by omega) (by omega)
    generalize sampledSizes (max 1 samples + 1) (max 1 samples) 1 0 selected.first = sampled at hSum
    obtain ⟨result, after⟩ := sampled
    obtain rfl : result = _ := hSum
    rw [Nat.zero_add]
    rfl

/-- The estimate of the size of an index. It is zero for an empty index alone, at least one
otherwise, and off by no more than half of the number of places; by no more than two with the
usual eight. Every place sampled is that of an entry. -/
theorem estimateCount_bounded {name : String} {steps : List Declaration}
    (hDeclare : Table.declare name steps = .ok table) (hReachable : Store.Reachable table store)
    (hCursor : cursor.On store) (hSlot : store.slot target = .ok slot)
    (hWord : slot.index.size + samples < 2 ^ 62) (reversed distinct : Bool) :
    ∃ estimate after,
      estimateCount ⟨.wholeIndex target reversed, distinct⟩ samples cursor =
        (.ok estimate, after) ∧
      (estimate = 0 ↔ slot.index.size = 0) ∧
      (1 ≤ slot.index.size →
        1 ≤ estimate ∧
        (slot.index.size : ℚ) - ((max 1 samples : ℕ) + 1) / 2 - 1 < estimate ∧
        (estimate : ℚ) ≤ slot.index.size + ((max 1 samples : ℕ) + 1) / 2 ∧
        (samples = defaultSamples →
          slot.index.size ≤ estimate + 2 ∧ estimate ≤ slot.index.size + 1) ∧
        ∀ number ≤ max 1 samples, ∀ standing : Cursor, standing.slot = slot →
          ∃ entry ∈ slot.index.entries.toList,
            let gone := standing.gotoPosition number.toUInt64 (max 1 samples + 1).toUInt64
            gone.entry = .ok entry ∧
            gone.position =
              .ok ⟨slot.index.size * number / (max 1 samples + 1), slot.index.size⟩) := by
  have hTable := Table.wellFormed_of_declare hDeclare
  have hNames := Store.indexNames_nodup hTable hReachable.invariant
  have hEstimate := estimateWhole_eq hNames hCursor hSlot hWord
  generalize hWhole : estimateWhole target samples cursor = whole at hEstimate
  obtain ⟨result, after⟩ := whole
  obtain rfl : result = _ := hEstimate
  refine ⟨_, after, by simp only [estimateCount, hWhole]; rfl, ?_, fun hSome => ?_⟩
  · split
    · simpa
    · rename_i hSome
      exact iff_of_false (Nat.ne_of_gt (le_max_left 1 _)) hSome
  rw [if_neg (Nat.ne_of_gt hSome)]
  have hPlaces : 0 < max 1 samples := le_max_left 1 samples
  refine ⟨le_max_left 1 _, lt_cast_meanSize hPlaces, cast_meanSize_le hSome hPlaces, ?_, ?_⟩
  · rintro rfl
    exact meanSize_default hSome
  · rintro number hLast standing rfl
    have hNumber : number < max 1 samples + 1 := by omega
    have hWords : standing.index.size + (max 1 samples + 1) < 2 ^ 64 := by
      unfold Cursor.index
      omega
    obtain ⟨entry, hEntry, hGoto, hRank⟩ := Cursor.gotoPosition_share hSome hNumber hWords
    refine ⟨entry, hEntry, ?_⟩
    rw [hGoto]
    exact ⟨rfl, congrArg (fun before => Except.ok (EntryPosition.mk before _)) hRank⟩

/-- Two entries, of which one place alone makes three. -/
theorem estimateCount_bounded_of_pair :
    let table : Table := ⟨"notes", [⟨"id", .int32, false, false, 0⟩], []⟩
    let operations : List StoreOperation := [.insert [.int32 7], .insert [.int32 7]]
    ∃ first, Store.create table = .ok first ∧
      ∃ estimate after,
        estimateCount ⟨.wholeIndex none true, false⟩ 0
          ((operations.foldl Store.apply first).cursor .byValues) = (.ok estimate, after) ∧
        estimate = 3 ∧ (estimate : ℚ) ≤ 2 + (1 + 1) / 2 := by
  intro table operations
  have hDeclare : Table.declare "notes" [.column "id" .int32] = .ok table := rfl
  obtain ⟨first, hCreate, hSize, hThree⟩ : ∃ first, Store.create table = .ok first ∧
      (operations.foldl Store.apply first).clustering.index.size = 2 ∧
      (estimateCount ⟨.wholeIndex none true, false⟩ 0
        ((operations.foldl Store.apply first).cursor .byValues)).1.toOption = some 3 :=
    ⟨_, rfl, by decide +kernel, by decide +kernel⟩
  obtain ⟨estimate, after, hEstimate, -, hBounds⟩ := estimateCount_bounded hDeclare
    ((Store.Reachable.created hCreate).foldl operations) (Store.cursor_on _ .byValues)
    (show Store.slot _ none = .ok _ from rfl) (by rw [hSize]; decide : _ + 0 < 2 ^ 62) true false
  obtain ⟨-, -, hAbove, -⟩ := hBounds (by rw [hSize]; decide)
  refine ⟨first, hCreate, estimate, after, hEstimate, ?_, ?_⟩
  · rw [hEstimate] at hThree
    exact Option.some.inj hThree
  · simpa [hSize] using hAbove

end Sampling

end Filter

end IndexedTable

import Mathlib.Data.List.Forall2

/-! Computations that may fail, opened step by step: a composite result is there exactly when the
result of every step is. -/

namespace Except

variable {ε ε' α β : Type}

theorem bind_eq_ok_iff {x : Except ε α} {f : α → Except ε β} {r : β} :
    x >>= f = .ok r ↔ ∃ a, x = .ok a ∧ f a = .ok r := by
  cases x with
  | error e => simp [bind, Except.bind]
  | ok a => simp [bind, Except.bind]

theorem map_eq_ok_iff {x : Except ε α} {f : α → β} {r : β} :
    x.map f = .ok r ↔ ∃ a, x = .ok a ∧ f a = r := by
  cases x with
  | error e => simp [Except.map]
  | ok a => simp [Except.map]

theorem mapError_eq_ok_iff {x : Except ε α} {f : ε → ε'} {r : α} :
    x.mapError f = .ok r ↔ x = .ok r := by
  cases x with
  | error e => simp [Except.mapError]
  | ok a => simp [Except.mapError]

theorem pure_eq_ok_iff {a b : α} : (pure a : Except ε α) = .ok b ↔ a = b := by
  simp [pure, Except.pure]

theorem throw_eq_ok_iff {e : ε} {r : α} : (throw e : Except ε α) = .ok r ↔ False := by
  simp [throw, throwThe, MonadExceptOf.throw]

/-- A guarded computation succeeds when its guard lets it pass. -/
theorem guard_eq_ok_iff {c : Prop} [Decidable c] {e : ε} {x : Except ε β} {r : β} :
    (if c then (throw e : Except ε α) >>= fun _ => x else x) = .ok r ↔ ¬c ∧ x = .ok r := by
  by_cases hGuard : c
  · simp [hGuard, bind_eq_ok_iff, throw_eq_ok_iff]
  · simp [hGuard]

/-- A list of computations succeeds item by item. -/
theorem mapM_eq_ok_iff {f : α → Except ε β} {xs : List α} {ys : List β} :
    xs.mapM f = .ok ys ↔ List.Forall₂ (fun x y => f x = .ok y) xs ys := by
  induction xs generalizing ys with
  | nil => cases ys <;> simp [pure_eq_ok_iff]
  | cons x xs ih =>
      simp only [List.mapM_cons, bind_eq_ok_iff, pure_eq_ok_iff]
      constructor
      · rintro ⟨y, hy, rest, hRest, rfl⟩
        exact .cons hy (ih.mp hRest)
      · intro h
        obtain ⟨y, rest, hy, hRest, rfl⟩ := List.forall₂_cons_left_iff.mp h
        exact ⟨y, hy, rest, ih.mpr hRest, rfl⟩

/-- A list of computations succeeds if each of them does. -/
theorem exists_mapM_eq_ok {f : α → Except ε β} {xs : List α} (h : ∀ x ∈ xs, ∃ y, f x = .ok y) :
    ∃ ys, xs.mapM f = .ok ys := by
  induction xs with
  | nil => exact ⟨[], rfl⟩
  | cons x xs ih =>
      obtain ⟨⟨y, hy⟩, hRest⟩ := List.forall_mem_cons.mp h
      obtain ⟨ys, hys⟩ := ih hRest
      exact ⟨y :: ys, mapM_eq_ok_iff.mpr (.cons hy (mapM_eq_ok_iff.mp hys))⟩

/-- The error of a computation that fails. -/
def error? : Except ε α → Option ε
  | .ok _ => none
  | .error e => some e

theorem error?_eq_none_iff {x : Except ε α} : x.error? = none ↔ ∃ a, x = .ok a := by
  cases x <;> simp [error?]

theorem error?_eq_some_iff {x : Except ε α} {e : ε} : x.error? = some e ↔ x = .error e := by
  cases x <;> simp [error?]

theorem error?_map {x : Except ε α} {f : α → β} : (x.map f).error? = x.error? := by
  cases x <;> rfl

/-- The second of two steps is asked for its error only if the first has none. -/
theorem error?_bind {x : Except ε α} {f : α → Except ε β} {later : Option ε}
    (hLater : ∀ a, x = .ok a → (f a).error? = later) : (x >>= f).error? = x.error?.or later := by
  cases x with
  | error e => rfl
  | ok a => exact hLater a rfl

/-- A step that cannot fail changes nothing in what may go wrong. -/
theorem error?_bind_of_ok {x : Except ε α} {f : α → Except ε β}
    (hLater : ∀ a, x = .ok a → ∃ b, f a = .ok b) : (x >>= f).error? = x.error? := by
  rw [error?_bind fun a ha => error?_eq_none_iff.mpr (hLater a ha), Option.or_none]

end Except

namespace List.Forall₂

variable {α β : Type} {R : α → β → Prop} {xs : List α} {ys : List β}

theorem exists_of_mem_right (hPairs : Forall₂ R xs ys) {y : β} (hy : y ∈ ys) :
    ∃ x ∈ xs, R x y := by
  induction hPairs with
  | nil => cases hy
  | cons hPair hRest ih =>
      rcases mem_cons.mp hy with rfl | hy
      · exact ⟨_, mem_cons_self, hPair⟩
      · obtain ⟨x, hx, hRelated⟩ := ih hy
        exact ⟨x, mem_cons_of_mem _ hx, hRelated⟩

theorem exists_of_mem_left (hPairs : Forall₂ R xs ys) {x : α} (hx : x ∈ xs) :
    ∃ y ∈ ys, R x y :=
  hPairs.flip.exists_of_mem_right hx

theorem exists_of_append {front back : List α} (hPairs : Forall₂ R (front ++ back) ys) :
    ∃ first second, Forall₂ R front first ∧ Forall₂ R back second ∧ ys = first ++ second :=
  ⟨_, _, (forall₂_take_append _ _ _ hPairs.flip).flip, (forall₂_drop_append _ _ _ hPairs.flip).flip,
    (take_append_drop _ _).symm⟩

theorem and {S : α → β → Prop} (hPairs : Forall₂ R xs ys) (hOthers : Forall₂ S xs ys) :
    Forall₂ (fun x y => R x y ∧ S x y) xs ys := by
  induction hPairs with
  | nil => exact .nil
  | cons hPair _ ih =>
      cases hOthers with
      | cons hOther hRest => exact .cons ⟨hPair, hOther⟩ (ih hRest)

end List.Forall₂

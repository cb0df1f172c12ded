import IndexedTable.Proofs.Coercion
import IndexedTable.Proofs.Results

/-! What the key of a value list consists of: the values are converted to the types of the leading
columns, and their segments stand one after another. Encoding fails only where a conversion does,
or where a value is matched by its leading part in a column that does not offer it. -/

namespace IndexedTable

namespace KeyColumn

/-- The segment of a value that the column can hold. -/
def segment (column : KeyColumn) (isOpen : Bool) (value : Value) : List UInt8 :=
  column.directed ((segment? isOpen value).getD [])

theorem segment?_of_fits {type : DataType} {value : Value} (h : value.Fits type)
    (isOpen : Bool) : ∃ s, segment? isOpen value = some s := by
  cases value with
  | list items => simp [Value.Fits, Value.dataType?] at h
  | _ => exact ⟨_, rfl⟩

/-- A value has a segment exactly when it can be converted to the type of the column. -/
theorem encode_eq_ok_iff {column : KeyColumn} {isOpen : Bool} {value : Value} {s : List UInt8} :
    column.encode isOpen value = .ok s ↔
      ∃ coerced, value.coerce? column.type = some coerced ∧
        s = column.segment isOpen coerced := by
  unfold encode
  cases hCoerce : value.coerce? column.type with
  | none => simp
  | some coerced =>
      obtain ⟨t, ht⟩ := segment?_of_fits (Value.fits_of_coerce? hCoerce) isOpen
      simp [ht, segment, eq_comm]

end KeyColumn

namespace KeyLayout

/-- The values of the leading columns, each converted to the type of its column. -/
def coerce? : KeyLayout → List Value → Option (List Value)
  | _, [] => some []
  | [], _ :: _ => none
  | column :: columns, value :: values => do
    let first ← value.coerce? column.type
    let others ← coerce? columns values
    return first :: others

/-- The segments of values that the leading columns can hold, one after another. -/
def bytes : KeyLayout → List Value → List UInt8
  | column :: columns, value :: values => column.segment false value ++ bytes columns values
  | _, _ => []

/-- Whether the leading columns can hold the values. -/
def Fits : KeyLayout → List Value → Prop
  | _, [] => True
  | [], _ :: _ => False
  | column :: columns, value :: values => value.Fits column.type ∧ Fits columns values

theorem coerce?_cons_eq_some {column : KeyColumn} {columns : KeyLayout} {value : Value}
    {values coerced : List Value} :
    coerce? (column :: columns) (value :: values) = some coerced ↔
      ∃ first others, value.coerce? column.type = some first ∧
        coerce? columns values = some others ∧ coerced = first :: others := by
  simp only [coerce?, Option.bind_eq_bind, Option.bind_eq_some_iff, Option.pure_def,
    Option.some.injEq]
  constructor
  · rintro ⟨first, hFirst, others, hOthers, rfl⟩
    exact ⟨first, others, hFirst, hOthers, rfl⟩
  · rintro ⟨first, others, hFirst, hOthers, rfl⟩
    exact ⟨first, hFirst, others, hOthers, rfl⟩

theorem fits_of_coerce? {layout : KeyLayout} {values coerced : List Value}
    (h : layout.coerce? values = some coerced) :
    layout.Fits coerced ∧ coerced.length = values.length := by
  induction values generalizing layout coerced with
  | nil =>
      obtain rfl : [] = coerced := by simpa [coerce?] using h
      cases layout <;> exact ⟨trivial, rfl⟩
  | cons value values ih =>
      cases layout with
      | nil => cases h
      | cons column columns =>
          obtain ⟨first, others, hFirst, hOthers, rfl⟩ := coerce?_cons_eq_some.mp h
          obtain ⟨hFits, hLength⟩ := ih hOthers
          exact ⟨⟨Value.fits_of_coerce? hFirst, hFits⟩, by simp [hLength]⟩

theorem length_le_of_fits {layout : KeyLayout} {values : List Value} (h : layout.Fits values) :
    values.length ≤ layout.width := by
  induction values generalizing layout with
  | nil => exact Nat.zero_le _
  | cons value values ih =>
      cases layout with
      | nil => exact h.elim
      | cons column columns => simpa [width] using ih h.2

/-- The first column contributes its segment, left open where it holds the last of values matched
by a leading part. -/
theorem segments_cons_eq_ok_iff {isPartial : Bool} {column : KeyColumn} {columns : KeyLayout}
    {value : Value} {values : List Value} {s : List UInt8} :
    segments isPartial (column :: columns) (value :: values) = .ok s ↔
      (isPartial && values.isEmpty → column.type.supportsPartialMatch) ∧
        ∃ coerced others, value.coerce? column.type = some coerced ∧
          segments isPartial columns values = .ok others ∧
          s = column.segment (isPartial && values.isEmpty) coerced ++ others := by
  rw [segments]
  cases isPartial && values.isEmpty <;> cases column.type.supportsPartialMatch
  case true.false =>
      simp [bind, Except.bind, throw, throwThe, MonadExceptOf.throw]
  all_goals
    simp only [Bool.not_true, Bool.not_false, Bool.and_true, Bool.and_false, Bool.false_eq_true,
      ↓reduceIte, Except.bind_eq_ok_iff, Except.pure_eq_ok_iff, KeyColumn.encode_eq_ok_iff,
      imp_self, false_implies, true_and]
    constructor
    · rintro ⟨_, ⟨coerced, hCoerced, rfl⟩, others, hOthers, rfl⟩
      exact ⟨coerced, others, hCoerced, hOthers, rfl⟩
    · rintro ⟨coerced, others, hCoerced, hOthers, rfl⟩
      exact ⟨_, ⟨coerced, hCoerced, rfl⟩, others, hOthers, rfl⟩

/-- Encoding is conversion followed by concatenation of the segments. -/
theorem segments_eq_ok_iff {layout : KeyLayout} {values : List Value} {s : List UInt8}
    (hLength : values.length ≤ layout.width) :
    layout.segments false values = .ok s ↔
      ∃ coerced, layout.coerce? values = some coerced ∧ s = layout.bytes coerced := by
  induction values generalizing layout s with
  | nil => cases layout <;> simp [segments, coerce?, bytes, eq_comm]
  | cons value values ih =>
      cases layout with
      | nil => simp [width] at hLength
      | cons column columns =>
          have hRest : values.length ≤ width columns := Nat.le_of_succ_le_succ hLength
          simp only [segments_cons_eq_ok_iff, Bool.false_and, Bool.false_eq_true, false_implies,
            true_and, ih hRest, coerce?_cons_eq_some]
          constructor
          · rintro ⟨a, _, ha, ⟨as, has, rfl⟩, rfl⟩
            exact ⟨a :: as, ⟨a, as, ha, has, rfl⟩, rfl⟩
          · rintro ⟨_, ⟨a, as, ha, has, rfl⟩, rfl⟩
            exact ⟨a, _, ha, ⟨as, has, rfl⟩, rfl⟩

/-- In a list matched by its leading part only the last segment is left open. -/
theorem segments_open_eq_ok_iff {layout : KeyLayout} {init : List Value} {last : Value}
    {s : List UInt8} (hLength : init.length < layout.width) :
    layout.segments true (init ++ [last]) = .ok s ↔
      ∃ column us u, layout[init.length]? = some column ∧
        column.type.supportsPartialMatch = true ∧ layout.coerce? init = some us ∧
        last.coerce? column.type = some u ∧ s = layout.bytes us ++ column.segment true u := by
  induction init generalizing layout s with
  | nil =>
      cases layout with
      | nil => cases hLength
      | cons column columns =>
          have hRest : segments true columns [] = .ok [] := by cases columns <;> rfl
          rw [List.nil_append, segments_cons_eq_ok_iff]
          simp only [hRest]
          constructor
          · rintro ⟨hType, coerced, others, hCoerced, hOthers, rfl⟩
            cases hOthers
            exact ⟨column, [], coerced, rfl, hType rfl, rfl, hCoerced, by simp [bytes]⟩
          · rintro ⟨_, us, u, hColumn, hType, hInit, hLast, rfl⟩
            cases hColumn
            cases hInit
            exact ⟨fun _ => hType, u, [], hLast, rfl, by simp [bytes]⟩
  | cons value init ih =>
      cases layout with
      | nil => cases hLength
      | cons column columns =>
          have hRest : init.length < width columns := Nat.lt_of_succ_lt_succ hLength
          have hMore : (init ++ [last]).isEmpty = false := by cases init <;> rfl
          rw [List.cons_append, segments_cons_eq_ok_iff]
          simp only [hMore, Bool.and_false, Bool.false_eq_true, false_implies, true_and, ih hRest,
            coerce?_cons_eq_some, List.length_cons, List.getElem?_cons_succ]
          constructor
          · rintro ⟨a, _, ha, ⟨last', us, u, hColumn, hType, hInit, hLast, rfl⟩, rfl⟩
            exact ⟨last', a :: us, u, hColumn, hType, ⟨a, us, ha, hInit, rfl⟩, hLast,
              by simp [bytes]⟩
          · rintro ⟨last', _, u, hColumn, hType, ⟨a, us, ha, hInit, rfl⟩, hLast, rfl⟩
            exact ⟨a, _, ha, ⟨last', us, u, hColumn, hType, hInit, hLast, rfl⟩, by simp [bytes]⟩

/-- The bytes that a limit adds to those of the values. -/
def limitMark (limit : KeyLimit) : List UInt8 := if limit.isEnd then rangeEndMark else []

theorem makeKey_ne_ok_of_width_lt {layout : KeyLayout} {values : List Value} {limit : KeyLimit}
    {key : Key} (h : layout.width < values.length) : layout.makeKey values limit ≠ .ok key := by
  simp [makeKey, h, bind, Except.bind, throw, throwThe, MonadExceptOf.throw]

/-- A key that is not matched by a leading part exists exactly when the values can be converted. -/
theorem makeKey_eq_ok_iff {layout : KeyLayout} {values : List Value} {limit : KeyLimit}
    {key : Key} (hLimit : limit.isPartial = false) :
    layout.makeKey values limit = .ok key ↔
      ∃ coerced, layout.coerce? values = some coerced ∧
        key = ⟨layout.bytes coerced ++ limitMark limit⟩ := by
  by_cases hLength : values.length ≤ layout.width
  · have hNotLess : ¬ layout.width < values.length := Nat.not_lt.mpr hLength
    simp only [makeKey, hNotLess, hLimit, Bool.false_and, Bool.false_eq_true, ↓reduceIte,
      Except.bind_eq_ok_iff, Except.pure_eq_ok_iff, segments_eq_ok_iff hLength, limitMark]
    constructor
    · rintro ⟨_, ⟨coerced, hCoerced, rfl⟩, rfl⟩
      exact ⟨coerced, hCoerced, rfl⟩
    · rintro ⟨coerced, hCoerced, rfl⟩
      exact ⟨_, ⟨coerced, hCoerced, rfl⟩, rfl⟩
  · have hLess : layout.width < values.length := Nat.not_le.mp hLength
    constructor
    · exact fun h => absurd h (makeKey_ne_ok_of_width_lt hLess)
    · rintro ⟨coerced, hCoerced, -⟩
      obtain ⟨hFits, hSame⟩ := fits_of_coerce? hCoerced
      have := length_le_of_fits hFits
      omega

/-- A key matched by a leading part needs a last column that offers it. -/
theorem makeKey_open_eq_ok_iff {layout : KeyLayout} {init : List Value} {last : Value}
    {limit : KeyLimit} {key : Key} (hLimit : limit.isPartial = true) :
    layout.makeKey (init ++ [last]) limit = .ok key ↔
      ∃ column us u, layout[init.length]? = some column ∧
        column.type.supportsPartialMatch = true ∧ layout.coerce? init = some us ∧
        last.coerce? column.type = some u ∧
        key = ⟨layout.bytes us ++ column.segment true u ++ limitMark limit⟩ := by
  have hSome : (init ++ [last]).isEmpty = false := by cases init <;> rfl
  by_cases hLength : init.length < layout.width
  · have hNotLess : ¬ layout.width < (init ++ [last]).length := by simp; omega
    simp only [makeKey, hNotLess, hLimit, hSome, Bool.and_false, Bool.false_eq_true, ↓reduceIte,
      Except.bind_eq_ok_iff, Except.pure_eq_ok_iff, segments_open_eq_ok_iff hLength, limitMark]
    constructor
    · rintro ⟨_, ⟨column, us, u, hColumn, hType, hInit, hLast, rfl⟩, rfl⟩
      exact ⟨column, us, u, hColumn, hType, hInit, hLast, rfl⟩
    · rintro ⟨column, us, u, hColumn, hType, hInit, hLast, rfl⟩
      exact ⟨_, ⟨column, us, u, hColumn, hType, hInit, hLast, rfl⟩, rfl⟩
  · have hLess : layout.width < (init ++ [last]).length := by simp; omega
    constructor
    · exact fun h => absurd h (makeKey_ne_ok_of_width_lt hLess)
    · rintro ⟨column, us, u, hColumn, -⟩
      obtain ⟨hInside, -⟩ := List.getElem?_eq_some_iff.mp hColumn
      exact absurd hInside hLength

theorem isNaN_of_coerce? {layout : KeyLayout} {values coerced : List Value}
    (h : layout.coerce? values = some coerced) (hValues : ∀ v ∈ values, v.isNaN = false) :
    ∀ v ∈ coerced, v.isNaN = false := by
  induction values generalizing layout coerced with
  | nil =>
      obtain rfl : [] = coerced := by simpa [coerce?] using h
      simp
  | cons value values ih =>
      cases layout with
      | nil => cases h
      | cons column columns =>
          obtain ⟨first, others, hFirst, hOthers, rfl⟩ := coerce?_cons_eq_some.mp h
          intro v hv
          rcases List.mem_cons.mp hv with rfl | hv
          · exact Value.isNaN_of_coerce? (hValues value List.mem_cons_self) hFirst
          · exact ih hOthers (fun w hw => hValues w (List.mem_cons_of_mem value hw)) v hv

/-- Each value is converted to the type of the column at its place. -/
theorem getElem?_coerce? {layout : KeyLayout} {values coerced : List Value} {place : Nat}
    {column : KeyColumn} {value : Value} (h : layout.coerce? values = some coerced)
    (hColumn : layout[place]? = some column) (hValue : values[place]? = some value) :
    ∃ c, coerced[place]? = some c ∧ value.coerce? column.type = some c := by
  induction values generalizing layout coerced place with
  | nil => simp at hValue
  | cons first values ih =>
      cases layout with
      | nil => cases h
      | cons top columns =>
          obtain ⟨a, as, ha, has, rfl⟩ := coerce?_cons_eq_some.mp h
          cases place with
          | zero =>
              cases hColumn
              cases hValue
              exact ⟨a, rfl, ha⟩
          | succ place =>
              rw [List.getElem?_cons_succ] at hColumn hValue ⊢
              exact ih has hColumn hValue

theorem coerce?_append_eq_some {layout : KeyLayout} {xs ys coerced : List Value} :
    layout.coerce? (xs ++ ys) = some coerced ↔
      ∃ as bs, layout.coerce? xs = some as ∧ coerce? (layout.drop xs.length) ys = some bs ∧
        coerced = as ++ bs := by
  induction xs generalizing layout coerced with
  | nil => simp [coerce?, eq_comm]
  | cons x xs ih =>
      cases layout with
      | nil => simp [coerce?]
      | cons column columns =>
          simp only [List.cons_append, coerce?_cons_eq_some, ih, List.length_cons,
            List.drop_succ_cons]
          constructor
          · rintro ⟨a, _, ha, ⟨as, bs, has, hbs, rfl⟩, rfl⟩
            exact ⟨a :: as, bs, ⟨a, as, ha, has, rfl⟩, hbs, rfl⟩
          · rintro ⟨_, bs, ⟨a, as, ha, has, rfl⟩, hbs, rfl⟩
            exact ⟨a, as ++ bs, ha, ⟨as, bs, has, hbs, rfl⟩, rfl⟩

theorem bytes_append {layout : KeyLayout} {as : List Value} (bs : List Value)
    (h : as.length ≤ layout.width) :
    layout.bytes (as ++ bs) = layout.bytes as ++ bytes (layout.drop as.length) bs := by
  induction as generalizing layout with
  | nil => cases layout <;> rfl
  | cons a as ih =>
      cases layout with
      | nil => cases h
      | cons column columns =>
          have hRest : as.length ≤ width columns := Nat.le_of_succ_le_succ h
          simp only [List.cons_append, bytes, ih hRest, List.length_cons, List.drop_succ_cons,
            List.append_assoc]

end KeyLayout

end IndexedTable

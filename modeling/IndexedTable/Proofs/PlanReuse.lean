import IndexedTable.Plan.Cache
import Mathlib.Data.Set.Function

/-! A cache of plans is transparent. Whatever was asked of it before, and whatever the fingerprints
are, a predicate is compiled to the plan or the error it is compiled to without a cache. What
carries this is the source kept beside a plan, which determines the plan, and not the fingerprint
under which the plan was found. -/

namespace IndexedTable

namespace Expr

mutual

/-- The thunks of an expression. -/
def thunks : Expr → List Thunk
  | field _ | literal _ | argument _ => []
  | thunk t => [t]
  | binary _ left right => thunks left ++ thunks right
  | unary _ operand => thunks operand
  | contains haystack needle => thunks haystack ++ thunks needle
  | call _ arguments => thunksOfAll arguments

/-- The thunks of several expressions. -/
def thunksOfAll : List Expr → List Thunk
  | [] => []
  | first :: rest => thunks first ++ thunksOfAll rest

end

variable {known : List Thunk}

mutual

/-- Expressions that are the same are equal, as far as thunks are what their identities say. -/
theorem eq_of_same (hKnown : Set.InjOn Thunk.id {t | t ∈ known}) :
    ∀ {a b : Expr}, same a b = true → a.thunks ⊆ known → b.thunks ⊆ known → a = b
  | field _, b, hSame, _, _ => by
      cases b <;> simp_all [same]
  | literal _, b, hSame, _, _ => by
      cases b <;> simp_all [same, Value.identical_iff]
  | argument _, b, hSame, _, _ => by
      cases b <;> simp_all [same]
  | thunk s, b, hSame, hLeft, hRight => by
      cases b with
      | thunk t =>
          have hId : s.id = t.id := by simpa [same] using hSame
          have hs : s ∈ known := hLeft (by simp [thunks])
          have ht : t ∈ known := hRight (by simp [thunks])
          rw [hKnown hs ht hId]
      | _ => simp [same] at hSame
  | binary op left right, b, hSame, hLeft, hRight => by
      cases b with
      | binary op' left' right' =>
          simp only [same, Bool.and_eq_true, decide_eq_true_eq] at hSame
          obtain ⟨⟨rfl, hFirst⟩, hSecond⟩ := hSame
          simp only [thunks, List.append_subset] at hLeft hRight
          rw [eq_of_same hKnown hFirst hLeft.1 hRight.1,
            eq_of_same hKnown hSecond hLeft.2 hRight.2]
      | _ => simp [same] at hSame
  | unary op operand, b, hSame, hLeft, hRight => by
      cases b with
      | unary op' operand' =>
          simp only [same, Bool.and_eq_true, decide_eq_true_eq] at hSame
          obtain ⟨rfl, hOperand⟩ := hSame
          simp only [thunks] at hLeft hRight
          rw [eq_of_same hKnown hOperand hLeft hRight]
      | _ => simp [same] at hSame
  | contains haystack needle, b, hSame, hLeft, hRight => by
      cases b with
      | contains haystack' needle' =>
          simp only [same, Bool.and_eq_true] at hSame
          simp only [thunks, List.append_subset] at hLeft hRight
          rw [eq_of_same hKnown hSame.1 hLeft.1 hRight.1,
            eq_of_same hKnown hSame.2 hLeft.2 hRight.2]
      | _ => simp [same] at hSame
  | call name arguments, b, hSame, hLeft, hRight => by
      cases b with
      | call name' arguments' =>
          simp only [same, Bool.and_eq_true, beq_iff_eq] at hSame
          obtain ⟨rfl, hArguments⟩ := hSame
          simp only [thunks] at hLeft hRight
          rw [eq_of_sameItems hKnown hArguments hLeft hRight]
      | _ => simp [same] at hSame

theorem eq_of_sameItems (hKnown : Set.InjOn Thunk.id {t | t ∈ known}) :
    ∀ {as bs : List Expr}, sameItems as bs = true →
      thunksOfAll as ⊆ known → thunksOfAll bs ⊆ known → as = bs
  | [], bs, hSame, _, _ => by
      cases bs <;> simp_all [sameItems]
  | a :: as, bs, hSame, hLeft, hRight => by
      cases bs with
      | nil => simp [sameItems] at hSame
      | cons b bs =>
          simp only [sameItems, Bool.and_eq_true] at hSame
          simp only [thunksOfAll, List.append_subset] at hLeft hRight
          rw [eq_of_same hKnown hSame.1 hLeft.1 hRight.1,
            eq_of_sameItems hKnown hSame.2 hLeft.2 hRight.2]

end

end Expr

namespace PlanCache

/-- Something asked of a cache. -/
inductive Call where
  | get (fingerprint : UInt64)
  | insert (fingerprint : UInt64) (plan : Plan)
  | compile (predicate : Expr) (direction : Direction)
  | clear

/-- The thunks of the predicate that a call compiles. -/
def Call.thunks : Call → List Thunk
  | compile predicate _ => predicate.thunks
  | _ => []

/-- The plan or the error of a predicate compiled without a cache. -/
def Call.compiledAfresh (table : Table) : Call → Option (Except CompileError Plan)
  | compile predicate direction => some ((table.compile predicate direction).map (·.plan))
  | _ => none

variable (fingerprintOf : Expr → Direction → UInt64) (table : Table)

/-- What a call that compiles is answered, and the cache after any call. -/
def respond (cache : PlanCache) : Call → Option (Except CompileError Plan) × PlanCache
  | .get fingerprint => (none, (cache.get fingerprint).2)
  | .insert fingerprint plan => (none, cache.insert fingerprint plan)
  | .compile predicate direction =>
    let (answer, cache) := cache.compileBy fingerprintOf table predicate direction
    (some (answer.map (·.plan)), cache)
  | .clear => (none, cache.clear)

/-- The answers to the calls that compile, in the order of the calls. -/
def answers (cache : PlanCache) : List Call → List (Except CompileError Plan)
  | [] => []
  | call :: rest =>
    let (answer, cache) := cache.respond fingerprintOf table call
    answer.toList ++ answers cache rest

variable {fingerprintOf} {table}

/-- Every plan whose source is known is what its source is compiled to, and the source has thunks
from the given ones only. -/
def Sound (table : Table) (known : List Thunk) (cache : PlanCache) : Prop :=
  ∀ entry ∈ cache.entries, ∀ predicate direction, entry.source = some (predicate, direction) →
    predicate.thunks ⊆ known ∧ (table.compile predicate direction).map (·.plan) = .ok entry.plan

theorem mem_of_mem_without {entries : List CachedPlan} {fingerprint : UInt64} {entry : CachedPlan}
    (hEntry : entry ∈ without entries fingerprint) : entry ∈ entries :=
  (List.mem_filter.mp hEntry).1

theorem mem_of_mem_evict {entries : List CachedPlan} {entry : CachedPlan}
    (hEntry : entry ∈ evict entries) : entry ∈ entries := by
  unfold evict at hEntry
  split at hEntry
  · exact hEntry
  · exact mem_of_mem_without hEntry

namespace Sound

variable {known : List Thunk} {cache : PlanCache}

theorem empty (capacity : Nat) : Sound table known (PlanCache.empty capacity) := by
  simp [Sound, PlanCache.empty]

theorem clear : Sound table known cache.clear := by
  simp [Sound, PlanCache.clear]

theorem tick (hSound : Sound table known cache) : Sound table known cache.tick := hSound

theorem miss (hSound : Sound table known cache) : Sound table known cache.miss := hSound

/-- A use changes stamps only. -/
theorem hit (hSound : Sound table known cache) (fingerprint : UInt64) :
    Sound table known (cache.hit fingerprint) := by
  intro entry hEntry predicate direction hSource
  obtain ⟨before, hBefore, rfl⟩ := List.mem_map.mp hEntry
  have hKept := hSound before hBefore predicate direction
  split at hSource <;> simp_all

theorem get (hSound : Sound table known cache) (fingerprint : UInt64) :
    Sound table known (cache.get fingerprint).2 := by
  unfold PlanCache.get
  split
  · exact hSound.tick.hit fingerprint
  · exact hSound.tick.miss

/-- A plan may be put in if it is what its source, where known, is compiled to. -/
theorem store (hSound : Sound table known cache) {fingerprint : UInt64} {plan : Plan}
    {source : Option (Expr × Direction)}
    (hSource : ∀ predicate direction, source = some (predicate, direction) →
      predicate.thunks ⊆ known ∧ (table.compile predicate direction).map (·.plan) = .ok plan) :
    Sound table known (cache.store fingerprint plan source) := by
  unfold PlanCache.store
  split
  · exact hSound
  · intro entry hEntry
    rcases List.mem_cons.mp hEntry with rfl | hOther
    · exact hSource
    · have hKept := mem_of_mem_without hOther
      split at hKept
      · exact hSound entry (mem_of_mem_evict hKept)
      · exact hSound entry hKept

theorem insert (hSound : Sound table known cache) (fingerprint : UInt64) (plan : Plan) :
    Sound table known (cache.insert fingerprint plan) :=
  hSound.store (by simp)

/-- A plan taken from the cache for a predicate is what the predicate is compiled to: the source of
the plan is the same predicate, hence equal to it. -/
theorem plan_of_isOf (hKnown : Set.InjOn Thunk.id {t | t ∈ known})
    (hSound : Sound table known cache) {fingerprint : UInt64} {entry : CachedPlan}
    {predicate : Expr} {direction : Direction} (hThunks : predicate.thunks ⊆ known)
    (hFind : cache.find? fingerprint = some entry)
    (hIsOf : CachedPlan.isOf entry predicate direction = true) :
    (table.compile predicate direction).map (·.plan) = .ok entry.plan := by
  obtain ⟨⟨source, _⟩, hSource, hMatch⟩ := (Option.any_eq_true _ _).mp hIsOf
  simp only [Bool.and_eq_true, decide_eq_true_eq] at hMatch
  obtain ⟨rfl, hSame⟩ := hMatch
  obtain ⟨hSourceThunks, hPlan⟩ := hSound entry (List.mem_of_find?_eq_some hFind) _ _ hSource
  rwa [← Expr.eq_of_same hKnown hSame hSourceThunks hThunks]

theorem compileBy (hKnown : Set.InjOn Thunk.id {t | t ∈ known})
    (hSound : Sound table known cache) {predicate : Expr} (direction : Direction)
    (hThunks : predicate.thunks ⊆ known) :
    (cache.compileBy fingerprintOf table predicate direction).1.map (·.plan) =
        (table.compile predicate direction).map (·.plan) ∧
      Sound table known (cache.compileBy fingerprintOf table predicate direction).2 := by
  unfold PlanCache.compileBy
  dsimp only
  split
  next entry hUsed =>
    obtain ⟨hFind, hIsOf⟩ := Option.filter_eq_some_iff.mp hUsed
    exact ⟨(hSound.tick.plan_of_isOf hKnown hThunks hFind hIsOf).symm, hSound.tick.hit _⟩
  next =>
    cases hCompile : table.compile predicate direction with
    | error e => exact ⟨rfl, hSound.tick.miss⟩
    | ok selection =>
        refine ⟨rfl, hSound.tick.miss.store ?_⟩
        rintro _ _ ⟨⟩
        exact ⟨hThunks, by rw [hCompile]; rfl⟩

/-- One call: the answer is the one without a cache, and the cache stays sound. -/
theorem respond (hKnown : Set.InjOn Thunk.id {t | t ∈ known})
    (hSound : Sound table known cache) {call : Call} (hThunks : call.thunks ⊆ known) :
    (cache.respond fingerprintOf table call).1 = call.compiledAfresh table ∧
      Sound table known (cache.respond fingerprintOf table call).2 := by
  cases call with
  | get fingerprint => exact ⟨rfl, hSound.get fingerprint⟩
  | insert fingerprint plan => exact ⟨rfl, hSound.insert fingerprint plan⟩
  | clear => exact ⟨rfl, Sound.clear⟩
  | compile predicate direction =>
      obtain ⟨hAnswer, hAfter⟩ := hSound.compileBy hKnown direction hThunks
      exact ⟨congrArg some hAnswer, hAfter⟩

theorem answers (hKnown : Set.InjOn Thunk.id {t | t ∈ known})
    (hSound : Sound table known cache) {calls : List Call}
    (hThunks : ∀ call ∈ calls, call.thunks ⊆ known) :
    cache.answers fingerprintOf table calls = calls.filterMap (Call.compiledAfresh table) := by
  induction calls generalizing cache with
  | nil => rfl
  | cons call rest ih =>
      obtain ⟨hFirst, hRest⟩ := List.forall_mem_cons.mp hThunks
      obtain ⟨hAnswer, hAfter⟩ := @respond fingerprintOf _ _ _ hKnown hSound _ hFirst
      simp only [PlanCache.answers]
      rw [hAnswer, ih hAfter hRest]
      cases hCompiled : call.compiledAfresh table <;> simp [hCompiled]

end Sound

/-- Compiling through a cache of any size answers every call of any sequence as compiling without a
cache does, with the same plan, which binds alike, or the same error. The fingerprints may collide,
and plans of any kind may have been put in under any of them. -/
theorem answers_eq_compiledAfresh (fingerprintOf : Expr → Direction → UInt64) (table : Table)
    (capacity : Nat) {calls : List Call}
    (hThunks : Set.InjOn Thunk.id {t | t ∈ calls.flatMap Call.thunks}) :
    let answers := (empty capacity).answers fingerprintOf table calls
    let afresh := calls.filterMap (Call.compiledAfresh table)
    answers = afresh ∧
      ∀ arguments, answers.map (·.map fun plan => plan.bind arguments) =
        afresh.map (·.map fun plan => plan.bind arguments) := by
  have hAnswers : (empty capacity).answers fingerprintOf table calls =
      calls.filterMap (Call.compiledAfresh table) :=
    (Sound.empty capacity).answers hThunks fun call hCall _ hThunk =>
      List.mem_flatMap.mpr ⟨call, hCall, hThunk⟩
  exact ⟨hAnswers, fun arguments => by rw [hAnswers]⟩

/-- Every predicate has the same fingerprint: a planted plan, the plan of another predicate and the
plan for another direction are all found under it, and none of them is used. -/
theorem answers_eq_compiledAfresh_of_collisions :
    let table : Table :=
      { name := "letters"
        columns := [⟨"c", .text, false, false, 0⟩]
        indices := [⟨"byC", "letters", [⟨"c", .ascending⟩], false, .standard, 1⟩] }
    let known : Thunk := ⟨3, fun arguments => arguments.getD 0 .null⟩
    let equals (value : Expr) : Expr := .binary .equal (.field "c") value
    let planted : Plan := ⟨0, false, .wholeIndex none true⟩
    let plan (source : ValueSource) (reversed : Bool) : Plan :=
      ⟨1, false, .exact "byC" [source] reversed⟩
    let calls : List Call :=
      [.insert 7 planted, .compile (equals (.thunk known)) .ascending, .get 7,
        .compile (equals (.thunk known)) .ascending, .compile (equals (.thunk known)) .descending,
        .compile (equals (.literal (.text "x"))) .descending,
        .compile (.binary .equal (.field "d") (.argument 0)) .ascending, .clear,
        .compile (equals (.thunk known)) .ascending]
    let answers := (empty 1).answers (fun _ _ => 7) table calls
    Set.InjOn Thunk.id {t | t ∈ calls.flatMap Call.thunks} ∧
      answers = calls.filterMap (Call.compiledAfresh table) ∧
      answers = [.ok (plan (.thunk known) false), .ok (plan (.thunk known) false),
        .ok (plan (.thunk known) true), .ok (plan (.literal (.text "x")) true),
        .error (.unknownField "d"), .ok (plan (.thunk known) false)] := by
  intro table known equals planted plan calls answers
  have hThunks : Set.InjOn Thunk.id {t | t ∈ calls.flatMap Call.thunks} := by
    have hOne : ∀ t ∈ calls.flatMap Call.thunks, t = known := by
      intro t ht
      simpa [calls, equals, Call.thunks, Expr.thunks] using ht
    intro s hs t ht _
    rw [hOne s hs, hOne t ht]
  have hAnswers := (answers_eq_compiledAfresh (fun _ _ => 7) table 1 hThunks).1
  exact ⟨hThunks, hAnswers, hAnswers.trans rfl⟩

end PlanCache

end IndexedTable

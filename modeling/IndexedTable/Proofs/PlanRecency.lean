import IndexedTable.Proofs.PlanReuse
import Mathlib.Algebra.Group.Nat.Defs
import Mathlib.Data.List.Find
import Mathlib.Data.List.Induction
import Mathlib.Data.List.Nodup

/-! A cache of plans keeps the plans used last. The list in which every use moves a plan to the
front, and from which the last plan drops when there is one too many, holds the same plans at any
time. What carries this is that the stamps of the plans differ and that none is later than the
clock: in order of their stamps the plans are that list, and the oldest stamp marks its end. -/

namespace IndexedTable

/-- A plan in a list that is ordered by use, so that it needs no stamp. -/
structure RecentPlan where
  fingerprint : UInt64
  plan : Plan
  /-- The predicate and the direction the plan was compiled from, if known. -/
  source : Option (Expr × Direction)

namespace RecentPlan

/-- Whether a plan was compiled from the predicate in the direction. -/
def isOf (recent : RecentPlan) (predicate : Expr) (direction : Direction) : Bool :=
  recent.source.any fun source => decide (source.2 = direction) && source.1.same predicate

/-- The plan of a fingerprint. -/
def find? (plans : List RecentPlan) (fingerprint : UInt64) : Option RecentPlan :=
  plans.find? fun recent => recent.fingerprint == fingerprint

/-- The plans without that of a fingerprint. -/
def without (plans : List RecentPlan) (fingerprint : UInt64) : List RecentPlan :=
  plans.filter fun recent => recent.fingerprint != fingerprint

/-- Moves the plan of a fingerprint to the front, if there is one. -/
def touch (plans : List RecentPlan) (fingerprint : UInt64) : List RecentPlan :=
  match find? plans fingerprint with
  | none => plans
  | some recent => recent :: without plans fingerprint

/-- Puts a plan at the front, in the place of another of its fingerprint, and drops the last plan
if there are now more of them than the bound. -/
def put (bound : Nat) (plans : List RecentPlan) (recent : RecentPlan) : List RecentPlan :=
  let grown := recent :: without plans recent.fingerprint
  if bound < grown.length then grown.dropLast else grown

/-- The plans after a call to a cache for a table. -/
def respond (fingerprintOf : Expr → Direction → UInt64) (bound : Nat) (table : Table)
    (plans : List RecentPlan) : PlanCache.Call → List RecentPlan
  | .get fingerprint => touch plans fingerprint
  | .insert fingerprint plan => put bound plans ⟨fingerprint, plan, none⟩
  | .compile predicate direction =>
    let fingerprint := fingerprintOf predicate direction
    if (find? plans fingerprint).any (·.isOf predicate direction) then touch plans fingerprint
    else
      match table.compile predicate direction with
      | .error _ => plans
      | .ok selection =>
        put bound plans ⟨fingerprint, selection.plan, some (predicate, direction)⟩
  | .clear => []

/-- The plans after some calls, each with the table it is for. -/
def after (fingerprintOf : Expr → Direction → UInt64) (bound : Nat)
    (calls : List (Table × PlanCache.Call)) : List RecentPlan :=
  calls.foldl (fun plans call => respond fingerprintOf bound call.1 plans call.2) []

end RecentPlan

/-- A plan of the cache without its stamp. -/
def CachedPlan.recent (entry : CachedPlan) : RecentPlan :=
  ⟨entry.fingerprint, entry.plan, entry.source⟩

namespace PlanCache

namespace Call

/-- Whether a call looks for a plan. -/
def isLookup : Call → Bool
  | get _ | compile _ _ => true
  | insert _ _ | clear => false

/-- Whether a call empties the cache. -/
def isClear : Call → Bool
  | clear => true
  | _ => false

/-- The number of calls that look for a plan, from the last clearing on. -/
def lookups (calls : List Call) : Nat :=
  (calls.reverse.takeWhile fun call => !call.isClear).countP isLookup

theorem lookups_concat (calls : List Call) (call : Call) :
    lookups (calls ++ [call]) =
      if call.isClear then 0 else lookups calls + if call.isLookup then 1 else 0 := by
  unfold lookups
  cases hClear : call.isClear <;> simp [hClear, List.countP_cons]

theorem lookups_le (calls : List Call) : lookups calls ≤ calls.length := by
  rw [← List.length_reverse]
  exact List.countP_le_length.trans (List.takeWhile_prefix _).length_le

end Call

/-- The cache after some calls, each with the table it is for. -/
def after (fingerprintOf : Expr → Direction → UInt64) (cache : PlanCache)
    (calls : List (Table × Call)) : PlanCache :=
  calls.foldl (fun cache call => (cache.respond fingerprintOf call.1 call.2).2) cache

/-- The plans of a cache from the latest stamp to the oldest. -/
structure Ranked (bound : Nat) (cache : PlanCache) (ranked : List CachedPlan) : Prop where
  capacity : cache.capacity = bound
  perm : cache.entries.Perm ranked
  latest : ranked.Pairwise fun a b => b.stamp < a.stamp
  stamped : ∀ entry ∈ ranked, entry.stamp ≤ cache.clock
  once : (ranked.map (·.fingerprint)).Nodup
  bounded : ranked.length ≤ bound

theorem oldest?_eq_none_iff {entries : List CachedPlan} :
    oldest? entries = none ↔ entries = [] := by
  cases entries with
  | nil => simp [oldest?]
  | cons entry rest =>
      rw [oldest?]
      split
      · simp
      · split <;> simp

theorem oldest?_eq_some {entries : List CachedPlan} {oldest : CachedPlan}
    (hOldest : oldest? entries = some oldest) :
    oldest ∈ entries ∧ ∀ entry ∈ entries, oldest.stamp ≤ entry.stamp := by
  induction entries generalizing oldest with
  | nil => cases hOldest
  | cons entry rest ih =>
      rw [oldest?] at hOldest
      split at hOldest
      next hNone =>
        cases hOldest
        simp [oldest?_eq_none_iff.mp hNone]
      next other hSome =>
        obtain ⟨hMem, hLeast⟩ := ih hSome
        split at hOldest
        next hFirst =>
          cases hOldest
          refine ⟨List.mem_cons_self, List.forall_mem_cons.mpr ⟨le_rfl, fun later hLater => ?_⟩⟩
          exact hFirst.trans (hLeast later hLater)
        next hOther =>
          cases hOldest
          exact ⟨List.mem_cons_of_mem _ hMem,
            List.forall_mem_cons.mpr ⟨(Nat.lt_of_not_le hOther).le, hLeast⟩⟩

theorem map_without (entries : List CachedPlan) (fingerprint : UInt64) :
    (without entries fingerprint).map CachedPlan.recent =
      RecentPlan.without (entries.map CachedPlan.recent) fingerprint := by
  rw [without, RecentPlan.without, List.filter_map]
  rfl

theorem without_eq_self {entries : List CachedPlan} {fingerprint : UInt64}
    (hAbsent : ∀ entry ∈ entries, entry.fingerprint ≠ fingerprint) :
    without entries fingerprint = entries :=
  List.filter_eq_self.mpr fun entry hEntry => by simpa using hAbsent entry hEntry

/-- Where each fingerprint occurs once, leaving one out splits the list at its plan. -/
theorem without_append_cons {before after : List CachedPlan} {entry : CachedPlan}
    (hOnce : ((before ++ entry :: after).map (·.fingerprint)).Nodup) :
    without (before ++ entry :: after) entry.fingerprint = before ++ after := by
  rw [List.map_append, List.map_cons, List.nodup_middle, ← List.map_append,
    List.nodup_cons] at hOnce
  have hAbsent : ∀ other ∈ before ++ after, other.fingerprint ≠ entry.fingerprint :=
    fun other hOther hSame => hOnce.1 (hSame ▸ List.mem_map_of_mem hOther)
  have hSplit := without_eq_self hAbsent
  rw [without, List.filter_append] at hSplit
  rw [without, List.filter_append, List.filter_cons_of_neg (by simp), hSplit]

theorem ne_of_mem_without {entries : List CachedPlan} {fingerprint : UInt64} {entry : CachedPlan}
    (hEntry : entry ∈ without entries fingerprint) : entry.fingerprint ≠ fingerprint := by
  simpa using (List.mem_filter.mp hEntry).2

theorem perm_cons_without {entries : List CachedPlan} {entry : CachedPlan}
    (hOnce : (entries.map (·.fingerprint)).Nodup) (hEntry : entry ∈ entries) :
    entries.Perm (entry :: without entries entry.fingerprint) := by
  obtain ⟨before, after, rfl⟩ := List.append_of_mem hEntry
  rw [without_append_cons hOnce]
  exact List.perm_middle

namespace Ranked

variable {bound : Nat} {cache : PlanCache} {ranked : List CachedPlan}

theorem empty (bound : Nat) : Ranked bound (PlanCache.empty bound) [] :=
  ⟨rfl, .nil, .nil, List.forall_mem_nil _, .nil, Nat.zero_le _⟩

theorem clear (hRanked : Ranked bound cache ranked) : Ranked bound cache.clear [] :=
  ⟨hRanked.capacity, .nil, .nil, List.forall_mem_nil _, .nil, Nat.zero_le _⟩

theorem tick (hRanked : Ranked bound cache ranked) : Ranked bound cache.tick ranked :=
  ⟨hRanked.capacity, hRanked.perm, hRanked.latest, fun entry hEntry =>
    (hRanked.stamped entry hEntry).trans (Nat.le_succ _), hRanked.once, hRanked.bounded⟩

theorem miss (hRanked : Ranked bound cache ranked) : Ranked bound cache.miss ranked :=
  ⟨hRanked.capacity, hRanked.perm, hRanked.latest, hRanked.stamped, hRanked.once, hRanked.bounded⟩

theorem size_eq (hRanked : Ranked bound cache ranked) : cache.size = ranked.length :=
  hRanked.perm.length_eq

/-- A plan is found in the cache as it is in the list. -/
theorem map_find? (hRanked : Ranked bound cache ranked) (fingerprint : UInt64) :
    (cache.find? fingerprint).map CachedPlan.recent =
      RecentPlan.find? (ranked.map CachedPlan.recent) fingerprint := by
  have hOnce := (hRanked.perm.map (·.fingerprint)).nodup_iff.mpr hRanked.once
  have hSame : cache.find? fingerprint =
      ranked.find? fun entry => entry.fingerprint == fingerprint := by
    refine List.find?_eq_find?_of_perm hRanked.perm ?_
    rintro a ⟨ha, haIs⟩ b ⟨hb, hbIs⟩
    exact List.inj_on_of_nodup_map hOnce ha hb
      ((beq_iff_eq.mp haIs).trans (beq_iff_eq.mp hbIs).symm)
  rw [hSame, RecentPlan.find?, List.find?_map]
  rfl

theorem absent_of_find? (hRanked : Ranked bound cache ranked) {fingerprint : UInt64}
    (hUnknown : cache.find? fingerprint = none) :
    ∀ entry ∈ ranked, entry.fingerprint ≠ fingerprint := fun entry hEntry => by
  simpa using List.find?_eq_none.mp hUnknown entry (hRanked.perm.mem_iff.mpr hEntry)

/-- The plan with the oldest stamp is the last. -/
theorem evict_perm {last : CachedPlan} (hRanked : Ranked bound cache (ranked ++ [last])) :
    (evict cache.entries).Perm ranked := by
  have hLater := (List.pairwise_append.mp hRanked.latest).2.2
  unfold evict
  split
  next hNone =>
    have hEmpty := hRanked.perm.symm
    rw [oldest?_eq_none_iff.mp hNone, List.perm_nil] at hEmpty
    simp at hEmpty
  next oldest hSome =>
    obtain ⟨hMem, hLeast⟩ := oldest?_eq_some hSome
    have hAtMost := hLeast last (hRanked.perm.mem_iff.mpr (by simp))
    rcases List.mem_append.mp (hRanked.perm.mem_iff.mp hMem) with hEarlier | hLast
    · exact absurd (hLater oldest hEarlier last (by simp)) (Nat.not_lt.mpr hAtMost)
    · rw [List.mem_singleton.mp hLast]
      have hKept := hRanked.perm.filter fun entry => entry.fingerprint != last.fingerprint
      rwa [← without, ← without, without_append_cons hRanked.once, List.append_nil] at hKept

/-- A plan with a new stamp goes before those of the other plans that there is room for. -/
theorem renew (hRanked : Ranked bound cache ranked) {next : PlanCache} {entry : CachedPlan}
    {others : List CachedPlan} (hPerm : next.entries.Perm (entry :: others))
    (hStamp : entry.stamp = cache.clock + 1) (hClock : next.clock = cache.clock + 1)
    (hCapacity : next.capacity = cache.capacity) (hOthers : others.Sublist ranked)
    (hAbsent : ∀ other ∈ others, other.fingerprint ≠ entry.fingerprint)
    (hRoom : others.length < bound) : Ranked bound next (entry :: others) where
  capacity := hCapacity.trans hRanked.capacity
  perm := hPerm
  latest := by
    refine List.pairwise_cons.mpr ⟨fun other hOther => ?_, hRanked.latest.sublist hOthers⟩
    exact hStamp ▸ Nat.lt_succ_of_le (hRanked.stamped other (hOthers.subset hOther))
  stamped := by
    refine hClock ▸ List.forall_mem_cons.mpr ⟨hStamp.le, fun other hOther => ?_⟩
    exact (hRanked.stamped other (hOthers.subset hOther)).trans (Nat.le_succ _)
  once := by
    refine List.nodup_cons.mpr ⟨fun hMem => ?_, hRanked.once.sublist (hOthers.map _)⟩
    obtain ⟨other, hOther, hSame⟩ := List.mem_map.mp hMem
    exact hAbsent other hOther hSame
  bounded := hRoom

/-- There is room for a new plan beside the others if one of them has its fingerprint. -/
theorem length_without_lt (hRanked : Ranked bound cache ranked) {fingerprint : UInt64}
    (hRoom : (cache.find? fingerprint).isSome ∨ cache.size < bound) :
    (without ranked fingerprint).length < bound := by
  have hBounded := hRanked.bounded
  rcases hRoom with hKnown | hRoom
  · obtain ⟨entry, hFind⟩ := Option.isSome_iff_exists.mp hKnown
    obtain rfl : entry.fingerprint = fingerprint := by simpa using List.find?_some hFind
    have hMem := hRanked.perm.mem_iff.mp (List.mem_of_find?_eq_some hFind)
    have hLength := (perm_cons_without hRanked.once hMem).length_eq
    rw [List.length_cons] at hLength
    omega
  · rw [hRanked.size_eq] at hRoom
    exact (List.length_filter_le _ _).trans_lt hRoom

/-- A use moves the plan of a fingerprint to the front. -/
theorem hit (hRanked : Ranked bound cache ranked) {fingerprint : UInt64} {entry : CachedPlan}
    (hFind : cache.find? fingerprint = some entry) :
    Ranked bound (cache.tick.hit fingerprint)
      ({ entry with stamp := cache.clock + 1 } :: without ranked fingerprint) := by
  obtain rfl : entry.fingerprint = fingerprint := by simpa using List.find?_some hFind
  have hMem := hRanked.perm.mem_iff.mp (List.mem_of_find?_eq_some hFind)
  have hSplit := perm_cons_without hRanked.once hMem
  have hRoom := hRanked.length_without_lt (.inl (Option.isSome_of_eq_some hFind))
  refine hRanked.renew ?_ rfl rfl rfl List.filter_sublist (fun other => ne_of_mem_without) hRoom
  have hMapped := (hRanked.perm.trans hSplit).map fun other =>
    if other.fingerprint == entry.fingerprint then { other with stamp := cache.clock + 1 }
    else other
  have hOthers : ∀ other ∈ without ranked entry.fingerprint,
      (if other.fingerprint == entry.fingerprint then { other with stamp := cache.clock + 1 }
        else other) = other :=
    fun other hOther => by simp [ne_of_mem_without hOther]
  rw [List.map_cons, List.map_congr_left hOthers, List.map_id'] at hMapped
  simpa [PlanCache.hit, PlanCache.tick] using hMapped

theorem store_of_room (hRanked : Ranked bound cache ranked) (hSome : cache.capacity ≠ 0)
    {fingerprint : UInt64} (plan : Plan) (source : Option (Expr × Direction))
    (hRoom : (cache.find? fingerprint).isSome ∨ cache.size < bound) :
    Ranked bound (cache.store fingerprint plan source)
      (⟨fingerprint, plan, source, cache.clock + 1⟩ :: without ranked fingerprint) := by
  have hPerm := hRanked.perm.filter fun entry => entry.fingerprint != fingerprint
  have hKept :
      ¬(!(cache.find? fingerprint).isSome && decide (cache.capacity ≤ cache.size)) = true := by
    rw [hRanked.capacity]
    rcases hRoom with hKnown | hRoom
    · simp [hKnown]
    · simp [hRoom]
  rw [PlanCache.store, if_neg hSome]
  dsimp only
  rw [if_neg hKept]
  exact hRanked.renew (hPerm.cons _) rfl rfl rfl List.filter_sublist
    (fun other => ne_of_mem_without) (hRanked.length_without_lt hRoom)

theorem store_of_full {last : CachedPlan} (hRanked : Ranked bound cache (ranked ++ [last]))
    (hSome : cache.capacity ≠ 0) {fingerprint : UInt64} (plan : Plan)
    (source : Option (Expr × Direction)) (hUnknown : cache.find? fingerprint = none)
    (hFull : bound ≤ cache.size) :
    Ranked bound (cache.store fingerprint plan source)
      (⟨fingerprint, plan, source, cache.clock + 1⟩ :: ranked) := by
  have hAbsent := hRanked.absent_of_find? hUnknown
  have hFront : ∀ entry ∈ ranked, entry.fingerprint ≠ fingerprint :=
    fun entry hEntry => hAbsent entry (List.mem_append_left _ hEntry)
  have hKept := hRanked.evict_perm.filter fun entry => entry.fingerprint != fingerprint
  rw [← without, ← without, without_eq_self hFront] at hKept
  have hBounded := hRanked.bounded
  rw [List.length_append, List.length_singleton] at hBounded
  rw [PlanCache.store, if_neg hSome]
  dsimp only
  rw [if_pos (by simp [hUnknown, hRanked.capacity, hFull])]
  exact hRanked.renew (hKept.cons _) rfl rfl rfl (List.sublist_append_left _ _) hFront hBounded

/-- A new plan goes to the front, and the last plan drops if it was one too many. -/
theorem store (hRanked : Ranked bound cache ranked) (fingerprint : UInt64) (plan : Plan)
    (source : Option (Expr × Direction)) :
    ∃ next, Ranked bound (cache.store fingerprint plan source) next ∧
      next.map CachedPlan.recent =
        RecentPlan.put bound (ranked.map CachedPlan.recent) ⟨fingerprint, plan, source⟩ := by
  by_cases hNone : cache.capacity = 0
  · have hBounded := hRanked.bounded
    rw [← hRanked.capacity, hNone] at hBounded
    obtain rfl : ranked = [] := List.eq_nil_of_length_eq_zero (Nat.eq_zero_of_le_zero hBounded)
    rw [PlanCache.store, if_pos hNone]
    exact ⟨[], hRanked, by simp [RecentPlan.put, RecentPlan.without, ← hRanked.capacity, hNone]⟩
  by_cases hRoom : (cache.find? fingerprint).isSome ∨ cache.size < bound
  · refine ⟨_, hRanked.store_of_room hNone plan source hRoom, ?_⟩
    have hLength := hRanked.length_without_lt hRoom
    rw [RecentPlan.put, ← map_without, if_neg (by simp; omega)]
    rfl
  · obtain ⟨hUnknown, hFull⟩ := not_or.mp hRoom
    have hUnknown : cache.find? fingerprint = none := by simpa using hUnknown
    have hFull : bound ≤ cache.size := Nat.le_of_not_lt hFull
    rcases List.eq_nil_or_concat' ranked with rfl | ⟨front, last, rfl⟩
    · rw [hRanked.size_eq, ← hRanked.capacity] at hFull
      exact absurd (Nat.eq_zero_of_le_zero hFull) hNone
    · refine ⟨_, hRanked.store_of_full hNone plan source hUnknown hFull, ?_⟩
      rw [hRanked.size_eq] at hFull
      rw [RecentPlan.put, ← map_without, without_eq_self (hRanked.absent_of_find? hUnknown),
        if_pos (by simp at hFull ⊢; omega), List.map_append, List.map_singleton, ← List.cons_append,
        List.dropLast_concat]
      rfl

theorem touch_of_find? (hRanked : Ranked bound cache ranked) {fingerprint : UInt64}
    {entry : CachedPlan} (hFind : cache.find? fingerprint = some entry) :
    RecentPlan.touch (ranked.map CachedPlan.recent) fingerprint =
      entry.recent :: (without ranked fingerprint).map CachedPlan.recent := by
  rw [RecentPlan.touch, ← hRanked.map_find?, hFind, map_without]
  rfl

theorem get (hRanked : Ranked bound cache ranked) (fingerprint : UInt64) :
    ∃ next, Ranked bound (cache.get fingerprint).2 next ∧ next.map CachedPlan.recent =
      RecentPlan.touch (ranked.map CachedPlan.recent) fingerprint := by
  unfold PlanCache.get
  split
  next entry hFind => exact ⟨_, hRanked.hit hFind, (hRanked.touch_of_find? hFind).symm⟩
  next hFind =>
    refine ⟨ranked, hRanked.tick.miss, ?_⟩
    rw [RecentPlan.touch, ← hRanked.map_find?, hFind]
    rfl

variable (fingerprintOf : Expr → Direction → UInt64)

/-- One call: the plans stay in the order of their use. -/
theorem respond (hRanked : Ranked bound cache ranked) (table : Table) (call : Call) :
    ∃ next, Ranked bound (cache.respond fingerprintOf table call).2 next ∧
      next.map CachedPlan.recent = RecentPlan.respond fingerprintOf bound table
        (ranked.map CachedPlan.recent) call := by
  cases call with
  | get fingerprint => exact hRanked.get fingerprint
  | insert fingerprint plan => exact hRanked.store fingerprint plan none
  | clear => exact ⟨[], hRanked.clear, rfl⟩
  | compile predicate direction =>
      simp only [PlanCache.respond, RecentPlan.respond, compileBy, ← hRanked.map_find?]
      split
      next entry hUsed =>
        obtain ⟨hFind, hIsOf⟩ := Option.filter_eq_some_iff.mp hUsed
        have hFind : cache.find? (fingerprintOf predicate direction) = some entry := hFind
        have hIsOf : entry.recent.isOf predicate direction = true := hIsOf
        refine ⟨_, hRanked.hit hFind, ?_⟩
        rw [hFind, Option.map_some, Option.any_some, if_pos hIsOf, hRanked.touch_of_find? hFind]
        rfl
      next hUnused =>
        have hNotOf : ((cache.find? (fingerprintOf predicate direction)).map
            CachedPlan.recent).any (·.isOf predicate direction) = false := by
          rw [Option.any_map, Option.any_eq_false]
          intro entry hEntry
          exact Bool.eq_false_iff.mpr (Option.filter_eq_none_iff.mp hUnused entry hEntry)
        rw [hNotOf]
        cases table.compile predicate direction with
        | error e => exact ⟨ranked, hRanked.tick.miss, rfl⟩
        | ok selection => exact hRanked.tick.miss.store _ selection.plan _

/-- After any calls the plans, in the order of their stamps, are those of the list. -/
theorem exists_after (bound : Nat) (calls : List (Table × Call)) :
    ∃ ranked, Ranked bound ((PlanCache.empty bound).after fingerprintOf calls) ranked ∧
      ranked.map CachedPlan.recent = RecentPlan.after fingerprintOf bound calls := by
  induction calls using List.reverseRecOn with
  | nil => exact ⟨[], .empty bound, rfl⟩
  | append_singleton calls call ih =>
      obtain ⟨ranked, hRanked, hPlans⟩ := ih
      obtain ⟨next, hNext, hSame⟩ := hRanked.respond fingerprintOf call.1 call.2
      refine ⟨next, ?_, ?_⟩
      · rwa [PlanCache.after, List.foldl_concat]
      · rw [hSame, hPlans, RecentPlan.after, RecentPlan.after, List.foldl_concat]

end Ranked

section Counters

variable {cache : PlanCache} {fingerprintOf : Expr → Direction → UInt64}

@[simp]
theorem hits_store (fingerprint : UInt64) (plan : Plan) (source : Option (Expr × Direction)) :
    (cache.store fingerprint plan source).hits = cache.hits := by
  unfold store
  split <;> rfl

@[simp]
theorem misses_store (fingerprint : UInt64) (plan : Plan) (source : Option (Expr × Direction)) :
    (cache.store fingerprint plan source).misses = cache.misses := by
  unfold store
  split <;> rfl

theorem clock_store_le (fingerprint : UInt64) (plan : Plan) (source : Option (Expr × Direction)) :
    (cache.store fingerprint plan source).clock ≤ cache.clock + 1 := by
  unfold store
  split
  · exact Nat.le_succ _
  · exact Nat.le_refl _

/-- Every call that looks for a plan is counted once, and clearing forgets the counts. -/
theorem requests_respond (table : Table) (call : Call) :
    (cache.respond fingerprintOf table call).2.hits +
        (cache.respond fingerprintOf table call).2.misses =
      if call.isClear then 0
      else cache.hits + cache.misses + if call.isLookup then 1 else 0 := by
  cases call with
  | get fingerprint =>
      simp only [respond, get]
      split
      · exact Nat.add_right_comm ..
      · rfl
  | insert fingerprint plan => simp [respond, insert, Call.isClear, Call.isLookup]
  | clear => rfl
  | compile predicate direction =>
      simp only [respond, compileBy]
      split
      · exact Nat.add_right_comm ..
      · cases table.compile predicate direction with
        | error e => rfl
        | ok selection => simp [tick, miss, Call.isClear, Call.isLookup, Nat.add_assoc]

/-- A call advances the clock at most twice. -/
theorem clock_respond_le (table : Table) (call : Call) :
    (cache.respond fingerprintOf table call).2.clock ≤ cache.clock + 2 := by
  cases call with
  | get fingerprint =>
      simp only [respond, get]
      split <;> exact Nat.le_succ _
  | insert fingerprint plan => exact (clock_store_le ..).trans (Nat.le_succ _)
  | clear => exact Nat.le_add_right _ _
  | compile predicate direction =>
      simp only [respond, compileBy]
      split
      · exact Nat.le_succ _
      · cases table.compile predicate direction with
        | error e => exact Nat.le_succ _
        | ok selection => exact clock_store_le ..

theorem requests_after (capacity : Nat) (calls : List (Table × Call)) :
    ((empty capacity).after fingerprintOf calls).hits +
        ((empty capacity).after fingerprintOf calls).misses =
      Call.lookups (calls.map (·.2)) := by
  induction calls using List.reverseRecOn with
  | nil => rfl
  | append_singleton calls call ih =>
      rw [after, List.foldl_concat, ← after, requests_respond, ih, List.map_append,
        List.map_singleton, Call.lookups_concat]

theorem clock_after_le (capacity : Nat) (calls : List (Table × Call)) :
    ((empty capacity).after fingerprintOf calls).clock ≤ 2 * calls.length := by
  induction calls using List.reverseRecOn with
  | nil => exact Nat.le_refl 0
  | append_singleton calls call ih =>
      rw [after, List.foldl_concat, ← after, List.length_append, List.length_singleton]
      exact (clock_respond_le call.1 call.2).trans (by omega)

end Counters

/-- After any calls, for any tables and under any fingerprints, the cache holds the plans of the
list, each under its fingerprint, and answers a request for a fingerprint from it. There are never
more plans than the capacity, every request since the last clearing is counted as a hit or as a
miss, and in fewer than 2^63 calls neither the clock nor the counts leave 64 bits. -/
theorem holds_latest (fingerprintOf : Expr → Direction → UInt64) (capacity : Nat)
    {calls : List (Table × Call)} (hCalls : calls.length < 2 ^ 63) :
    let cache := (empty capacity).after fingerprintOf calls
    let plans := RecentPlan.after fingerprintOf capacity calls
    (cache.entries.map CachedPlan.recent).Perm plans ∧ (plans.map (·.fingerprint)).Nodup ∧
      (∀ fingerprint, (cache.get fingerprint).1 =
        (RecentPlan.find? plans fingerprint).map (·.plan)) ∧
      cache.size = plans.length ∧ cache.size ≤ capacity ∧
      cache.hits + cache.misses = Call.lookups (calls.map (·.2)) ∧
      cache.clock < 2 ^ 64 ∧ cache.hits + cache.misses < 2 ^ 64 := by
  intro cache plans
  obtain ⟨ranked, hRanked, hPlans⟩ := Ranked.exists_after fingerprintOf capacity calls
  have hPlans : ranked.map CachedPlan.recent = plans := hPlans
  have hRequests : cache.hits + cache.misses = _ := requests_after capacity calls
  have hClock : cache.clock ≤ 2 * calls.length := clock_after_le capacity calls
  have hLookups := Call.lookups_le (calls.map (·.2))
  rw [List.length_map] at hLookups
  refine ⟨hPlans ▸ hRanked.perm.map _, ?_, fun fingerprint => ?_, ?_, ?_, hRequests,
    by omega, by omega⟩
  · rw [← hPlans, List.map_map]
    exact hRanked.once
  · rw [← hPlans, ← hRanked.map_find?, Option.map_map, get]
    cases cache.find? fingerprint <;> rfl
  · rw [← hPlans, List.length_map]
    exact hRanked.size_eq
  · exact hRanked.size_eq.trans_le hRanked.bounded

/-- Two plans have room. The third takes the place of the second, since the first was used again;
the compiled one takes the place of the first; a predicate that does not compile leaves all as it
is, although its fingerprint is that of the plan before it. -/
theorem holds_latest_of_full :
    let table : Table :=
      { name := "letters"
        columns := [⟨"c", .text, false, false, 0⟩]
        indices := [⟨"byC", "letters", [⟨"c", .ascending⟩], false, .standard, 1⟩] }
    let plan (index : String) : Plan := ⟨1, false, .wholeIndex (some index) false⟩
    let equals (field : String) : Expr := .binary .equal (.field field) (.literal (.text "x"))
    let calls : List (Table × Call) :=
      [.get 1, .clear, .insert 1 (plan "a"), .insert 2 (plan "b"), .get 1, .insert 3 (plan "c"),
        .get 2, .compile (equals "c") .ascending, .compile (equals "d") .ascending, .get 3].map
          fun call => (table, call)
    let cache := (empty 2).after (fun _ _ => 7) calls
    calls.length < 2 ^ 63 ∧
      (∀ fingerprint, (cache.get fingerprint).1 = (RecentPlan.find?
        [⟨3, plan "c", none⟩, ⟨7, ⟨1, false, .exact "byC" [.literal (.text "x")] false⟩,
          some (equals "c", .ascending)⟩] fingerprint).map (·.plan)) ∧
      cache.size = 2 ∧ cache.hits + cache.misses = 5 := by
  intro table plan equals calls cache
  have hCalls : calls.length < 2 ^ 63 := by decide
  have hPlans : RecentPlan.after (fun _ _ => 7) 2 calls = [⟨3, plan "c", none⟩,
      ⟨7, ⟨1, false, .exact "byC" [.literal (.text "x")] false⟩,
        some (equals "c", .ascending)⟩] := by
    have hCompiled : table.compile (equals "c") .ascending =
        .ok ⟨⟨1, false, .exact "byC" [.literal (.text "x")] false⟩, []⟩ := rfl
    have hRefused : table.compile (equals "d") .ascending = .error (.unknownField "d") := rfl
    simp [calls, RecentPlan.after, RecentPlan.respond, RecentPlan.touch, RecentPlan.put,
      RecentPlan.without, RecentPlan.find?, RecentPlan.isOf, hCompiled, hRefused, equals, Expr.same]
  obtain ⟨-, -, hGet, hSize, -, hRequests, -⟩ := holds_latest (fun _ _ => 7) 2 hCalls
  rw [hPlans] at hGet hSize
  exact ⟨hCalls, hGet, hSize, hRequests⟩

end PlanCache

end IndexedTable

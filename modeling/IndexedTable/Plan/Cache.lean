import IndexedTable.Binary64.Rounding
import IndexedTable.Plan.Basic
import IndexedTable.Plan.Fingerprint

/-! A cache of plans by fingerprint, bounded in size. Each use of a plan stamps it with the next
number of a clock, and a full cache gives up the plan with the oldest stamp. A plan is used again
only for the very predicate and direction it was compiled from. -/

namespace IndexedTable

/-- A plan in the cache. -/
structure CachedPlan where
  fingerprint : UInt64
  plan : Plan
  /-- The predicate and the direction the plan was compiled from, if known. -/
  source : Option (Expr × Direction)
  /-- The number of the last use. -/
  stamp : Nat

/-- A cache of plans, at most one for each fingerprint. -/
structure PlanCache where
  entries : List CachedPlan
  capacity : Nat
  /-- The number of the last use of any plan. -/
  clock : Nat
  hits : Nat
  misses : Nat

namespace PlanCache

/-- The capacity of a cache unless another is asked for. -/
def defaultCapacity : Nat := 64

/-- A cache without plans. -/
def empty (capacity : Nat) : PlanCache := ⟨[], capacity, 0, 0, 0⟩

/-- The plan of a fingerprint. -/
def find? (cache : PlanCache) (fingerprint : UInt64) : Option CachedPlan :=
  cache.entries.find? fun entry => entry.fingerprint == fingerprint

/-- The number of plans. -/
def size (cache : PlanCache) : Nat := cache.entries.length

/-- Whether there are no plans. -/
def isEmpty (cache : PlanCache) : Bool := cache.entries.isEmpty

/-- Advances the clock. -/
def tick (cache : PlanCache) : PlanCache := { cache with clock := cache.clock + 1 }

/-- Counts a use of the plan of a fingerprint and stamps it with the clock. -/
def hit (cache : PlanCache) (fingerprint : UInt64) : PlanCache :=
  { cache with
    hits := cache.hits + 1
    entries := cache.entries.map fun entry =>
      if entry.fingerprint == fingerprint then { entry with stamp := cache.clock } else entry }

/-- Counts a request that found no plan. -/
def miss (cache : PlanCache) : PlanCache := { cache with misses := cache.misses + 1 }

/-- Looks a plan up by fingerprint, whatever predicate it belongs to. -/
def get (cache : PlanCache) (fingerprint : UInt64) : Option Plan × PlanCache :=
  match cache.find? fingerprint with
  | some entry => (some entry.plan, cache.tick.hit fingerprint)
  | none => (none, cache.tick.miss)

/-- The plan with the oldest stamp, the first of them if several agree. -/
def oldest? : List CachedPlan → Option CachedPlan
  | [] => none
  | entry :: rest =>
    match oldest? rest with
    | none => some entry
    | some other => if entry.stamp ≤ other.stamp then some entry else some other

/-- The plans without that of a fingerprint. -/
def without (entries : List CachedPlan) (fingerprint : UInt64) : List CachedPlan :=
  entries.filter fun entry => entry.fingerprint != fingerprint

/-- The plans without the one with the oldest stamp. -/
def evict (entries : List CachedPlan) : List CachedPlan :=
  match oldest? entries with
  | none => entries
  | some entry => without entries entry.fingerprint

/-- Puts a plan into the cache, in the place of another of the same fingerprint or, if the cache
is full, of the one with the oldest stamp. -/
def store (cache : PlanCache) (fingerprint : UInt64) (plan : Plan)
    (source : Option (Expr × Direction)) : PlanCache :=
  if cache.capacity = 0 then cache
  else
    let known := (cache.find? fingerprint).isSome
    let entries :=
      if !known && decide (cache.capacity ≤ cache.size) then evict cache.entries
      else cache.entries
    let cache := cache.tick
    { cache with
      entries := ⟨fingerprint, plan, source, cache.clock⟩ :: without entries fingerprint }

/-- Puts a plan of unknown origin into the cache. -/
def insert (cache : PlanCache) (fingerprint : UInt64) (plan : Plan) : PlanCache :=
  cache.store fingerprint plan none

/-- Whether a plan was compiled from the predicate in the direction. -/
def CachedPlan.isOf (entry : CachedPlan) (predicate : Expr) (direction : Direction) : Bool :=
  entry.source.any fun source => decide (source.2 = direction) && source.1.same predicate

/-- Compiles a predicate, or takes its plan from the cache; the plan of another predicate that
shares its fingerprint is replaced. Nothing is ignored anew when the plan comes from the cache. -/
def compileBy (fingerprintOf : Expr → Direction → UInt64) (cache : PlanCache) (table : Table)
    (predicate : Expr) (direction : Direction) : Except CompileError Selection × PlanCache :=
  let fingerprint := fingerprintOf predicate direction
  let cache := cache.tick
  match (cache.find? fingerprint).filter fun entry => CachedPlan.isOf entry predicate direction with
  | some entry => (.ok ⟨entry.plan, []⟩, cache.hit fingerprint)
  | none =>
    let cache := cache.miss
    match table.compile predicate direction with
    | .error e => (.error e, cache)
    | .ok selection =>
      (.ok selection, cache.store fingerprint selection.plan (some (predicate, direction)))

/-- Compiles a predicate through the cache, under its fingerprint. -/
def compile (cache : PlanCache) (table : Table) (predicate : Expr) (direction : Direction) :
    Except CompileError Selection × PlanCache :=
  cache.compileBy Expr.fingerprint table predicate direction

/-- Removes every plan and resets the counts; the clock goes on. -/
def clear (cache : PlanCache) : PlanCache := { cache with entries := [], hits := 0, misses := 0 }

/-- The share of requests that found a plan; zero without requests. -/
def hitRate (cache : PlanCache) : Binary64 := .ofRatio cache.hits (cache.hits + cache.misses)

end PlanCache

end IndexedTable

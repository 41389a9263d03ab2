import Mathlib.Data.Rat.Floor
import Nomt.Store.Sync

/-!
# The workload configuration of the torture test

`WorkloadConfiguration::new` draws the configuration of one workload of the torture test.  It
draws a set of swarm features, takes the memory the resource allocator assigns to the
workload when a feature needs trickfs and its disk otherwise, and sizes the hash table to a
share of it.  It draws a seed and the bounds of the run (iterations, commit size, workers,
caches), and then lets each feature switch on what it enables, drawing the probabilities
that go with it (`apply_swarm_feature`).

The random number generator is kept abstract (`Rng`): what `gen_range` draws, what
`fill_bytes` fills and which features `swarm::new_features_set` picks.  Its contract
(`Rng.Sound`) is only that `gen_range` draws from the non-empty range it is given.  f64 values
are kept as rationals.  Under the contract every configuration stays within the bounds its
constants name (`inBounds_new`).  A probability lies from `0.01` to `1` when its feature was
drawn and is `0` otherwise (`probability_new`), so without trickfs no fault is injected
(`enospc_latency_new`), and the flags the supervisor reads follow the drawn features
(`isRollbackEnable_new_iff`).  The hash table has the most buckets that fit in its share of the
assigned space (`hashtableBuckets_new`).
-/

namespace Nomt

/-- `HASH_TABLE_SIZE_RATIO_DISK`: the share of the assigned disk the hash table takes. -/
def hashTableSizeRatioDisk : ℚ := 0.8

/-- `HASH_TABLE_SIZE_RATIO_MEM`: the share of the assigned memory the hash table takes. -/
def hashTableSizeRatioMem : ℚ := 0.5

/-- `MAX_COMMIT_SIZE`. -/
def maxCommitSize : Nat := 200000

/-- `MAX_ITERATIONS`. -/
def maxIterations : Nat := 10000

/-- `MAX_COMMIT_CONCURRENCY`. -/
def maxCommitConcurrency : Nat := 64

/-- `MAX_IO_WORKERS`. -/
def maxIoWorkers : Nat := 32

/-- `MAX_IN_MEMORY_CACHE_SIZE`, in MiB. -/
def maxInMemoryCacheSize : Nat := 512

/-- `MAX_PAGE_CACHE_UPPER_LEVELS`. -/
def maxPageCacheUpperLevels : Nat := 3

/-- `PAGE_SIZE`, the size of a bucket of the hash table. -/
def pageSize : Nat := 4096

/-- `SwarmFeatures`: the features a workload may have. -/
inductive SwarmFeatures
  | trickfsEnospc
  | trickfsLatencyInjection
  | ensureChangeset
  | sampleSnapshot
  | warmUp
  | preallocateHt
  | read
  | rollback
  | rollbackCrash
  | commitCrash
  | prepopulatePageCache
  | newKeys
  | deleteKeys
  | updateKeys
  | overflowValues
deriving DecidableEq

/-- `WorkloadConfiguration`.  `new_key_distribution` is kept as its list of weights. -/
structure WorkloadConfiguration where
  bitboxSeed : BitboxSeed
  iterations : Nat
  commitConcurrency : Nat
  ioWorkers : Nat
  hashtableBuckets : Nat
  warmUp : Bool
  preallocateHt : Bool
  pageCacheSize : Nat
  leafCacheSize : Nat
  prepopulatePageCache : Bool
  pageCacheUpperLevels : Nat
  avgCommitSize : Nat
  reads : ℚ
  readConcurrency : Nat
  readExistingKey : ℚ
  updateKey : ℚ
  deleteKey : ℚ
  newKey : ℚ
  overflow : ℚ
  ensureChangeset : Bool
  sampleSnapshot : Bool
  newKeyDistribution : List Nat
  commitCrash : ℚ
  rollback : ℚ
  maxRollbackCommits : Nat
  rollbackCrash : ℚ
  trickfs : Bool
  enospcOn : ℚ
  enospcOff : ℚ
  latencyOn : ℚ
  latencyOff : ℚ
  ensureSnapshot : Bool

/-- A range of `gen_range`: `lo..hi` or `lo..=hi`. -/
inductive GenRange (α : Type)
  | halfOpen (lo hi : α)
  | inclusive (lo hi : α)

namespace GenRange

variable {α : Type} [LinearOrder α]

/-- The values of a range. -/
def Contains : GenRange α → α → Prop
  | halfOpen lo hi, x => lo ≤ x ∧ x < hi
  | inclusive lo hi, x => lo ≤ x ∧ x ≤ hi

/-- A range with a value in it; `gen_range` panics on any other. -/
def Nonempty : GenRange α → Prop
  | halfOpen lo hi => lo < hi
  | inclusive lo hi => lo ≤ hi

end GenRange

/-- The random number generator of a workload, `rand_pcg::Pcg64`, over its state `σ`: what
`gen_range` draws from a range of integers or of f64 values, the seed `fill_bytes` fills, and
the features `swarm::new_features_set` picks. -/
structure Rng (σ : Type) where
  genRangeInt : GenRange Nat → σ → Nat × σ
  genRangeF64 : GenRange ℚ → σ → ℚ × σ
  fillBytes : σ → BitboxSeed × σ
  newFeaturesSet : σ → List SwarmFeatures × σ

/-- The contract of the generator: `gen_range` draws from the non-empty range it is given. -/
structure Rng.Sound {σ : Type} (R : Rng σ) : Prop where
  genRangeInt_contains : ∀ (r : GenRange Nat) s, r.Nonempty → r.Contains (R.genRangeInt r s).1
  genRangeF64_contains : ∀ (r : GenRange ℚ) s, r.Nonempty → r.Contains (R.genRangeF64 r s).1

/-- The lower end of a range. -/
def GenRange.lo {α : Type} : GenRange α → α
  | halfOpen lo _ | inclusive lo _ => lo

/-- A generator that draws the lower end of every range, fills the seed with zeros and picks the
features `fs`. -/
def Rng.low (fs : List SwarmFeatures) : Rng Unit where
  genRangeInt r s := (r.lo, s)
  genRangeF64 r s := (r.lo, s)
  fillBytes s := (⟨List.replicate 16 0, List.length_replicate 16 0⟩, s)
  newFeaturesSet s := (fs, s)

/-- The lower end of a non-empty range lies in it, so the contract can be met. -/
theorem Rng.low_sound (fs : List SwarmFeatures) : (Rng.low fs).Sound where
  genRangeInt_contains r _ h := by cases r <;> exact ⟨le_rfl, h⟩
  genRangeF64_contains r _ h := by cases r <;> exact ⟨le_rfl, h⟩

/-- `ResourceExhaustion`: the allocator has no memory or disk left to assign. -/
structure ResourceExhaustion where
deriving DecidableEq

/-- What the resource allocator answers for a workload: the bytes of memory or of disk it
assigns to it (`alloc_memory` then `assigned_memory`, `alloc` then `assigned_disk`), or that
the resource is exhausted. -/
structure ResourceAllocation where
  memory : Except ResourceExhaustion Nat
  disk : Except ResourceExhaustion Nat

variable {σ : Type} (R : Rng σ)

/-- `rng.gen_range` over integers. -/
def Rng.genInt (r : GenRange Nat) : StateM σ Nat := fun s => R.genRangeInt r s

/-- `rng.gen_range` over f64 values. -/
def Rng.genF64 (r : GenRange ℚ) : StateM σ ℚ := fun s => R.genRangeF64 r s

/-- `WorkloadConfiguration::apply_swarm_feature`. -/
def WorkloadConfiguration.applySwarmFeature (self : WorkloadConfiguration) :
    SwarmFeatures → StateM σ WorkloadConfiguration
  | .trickfsEnospc => do
    let enospcOn ← R.genF64 (.inclusive 0.01 1.00)
    let enospcOff ← R.genF64 (.inclusive 0.01 1.00)
    pure { self with enospcOn, enospcOff }
  | .trickfsLatencyInjection => do
    let latencyOn ← R.genF64 (.inclusive 0.01 1.00)
    let latencyOff ← R.genF64 (.inclusive 0.01 1.00)
    pure { self with latencyOn, latencyOff }
  | .ensureChangeset => pure { self with ensureChangeset := true }
  | .sampleSnapshot => pure { self with sampleSnapshot := true }
  | .warmUp => pure { self with warmUp := true }
  | .preallocateHt => pure { self with preallocateHt := true }
  | .read => do
    let reads ← R.genF64 (.halfOpen 0.01 1.00)
    let readConcurrency ← R.genInt (.inclusive 1 64)
    let readExistingKey ← R.genF64 (.halfOpen 0.01 1.00)
    pure { self with reads, readConcurrency, readExistingKey }
  | .rollback => do
    let rollback ← R.genF64 (.halfOpen 0.01 1.00)
    -- during scheduling of rollbacks the lower bound is 1, so the max is at least 2
    let maxRollbackCommits ← R.genInt (.halfOpen 2 100)
    pure { self with rollback, maxRollbackCommits }
  | .rollbackCrash => do pure { self with rollbackCrash := ← R.genF64 (.halfOpen 0.01 1.00) }
  | .commitCrash => do pure { self with commitCrash := ← R.genF64 (.halfOpen 0.01 1.00) }
  | .prepopulatePageCache => pure { self with prepopulatePageCache := true }
  | .newKeys => do pure { self with newKey := ← R.genF64 (.inclusive 0.01 1.00) }
  | .deleteKeys => do pure { self with deleteKey := ← R.genF64 (.inclusive 0.01 1.00) }
  | .updateKeys => do pure { self with updateKey := ← R.genF64 (.inclusive 0.01 1.00) }
  | .overflowValues => do pure { self with overflow := ← R.genF64 (.inclusive 0.01 1.00) }

/-- The weights of `new_key_distribution`: `32 * 32 / x` for `x` from `1` to `32`. -/
def newKeyWeights : List Nat := (List.range' 1 32).map fun x => 32 * 32 / x

/-- The bytes the allocator assigns to a workload (the block that computes `avail_bytes`): its
memory when it needs trickfs and its disk otherwise, or that the resource is exhausted. -/
def ResourceAllocation.availBytes (alloc : ResourceAllocation) (trickfs : Bool) :
    Except ResourceExhaustion Nat :=
  if trickfs then alloc.memory else alloc.disk

/-- Whether a feature set needs trickfs: whether it has one of the trickfs features. -/
def needsTrickfs (swarmFeatures : List SwarmFeatures) : Bool :=
  swarmFeatures.any fun feature => feature matches .trickfsEnospc | .trickfsLatencyInjection

/-- `WorkloadConfiguration::new`. -/
def WorkloadConfiguration.new (alloc : ResourceAllocation) :
    StateM σ (Except ResourceExhaustion WorkloadConfiguration) := do
  let swarmFeatures ← fun s => R.newFeaturesSet s
  let trickfs := needsTrickfs swarmFeatures
  match alloc.availBytes trickfs with
  | .error e => pure (.error e)
  | .ok availBytes => do
    let bitboxSeed ← fun s => R.fillBytes s
    let hashtableSize := if trickfs then ⌊(availBytes : ℚ) * hashTableSizeRatioMem⌋₊
      else ⌊(availBytes : ℚ) * hashTableSizeRatioDisk⌋₊
    let hashtableBuckets := hashtableSize / pageSize % 2 ^ 32
    let config : WorkloadConfiguration := {
      readExistingKey := 0
      newKey := 0
      deleteKey := 0
      updateKey := 0
      overflow := 0
      rollback := 0
      commitCrash := 0
      rollbackCrash := 0
      trickfs
      enospcOn := 0
      enospcOff := 0
      latencyOn := 0
      latencyOff := 0
      ensureChangeset := false
      ensureSnapshot := false
      sampleSnapshot := false
      maxRollbackCommits := 0
      reads := 0
      readConcurrency := 1
      warmUp := false
      preallocateHt := false
      prepopulatePageCache := false
      newKeyDistribution := newKeyWeights
      bitboxSeed
      iterations := ← R.genInt (.inclusive 1 maxIterations)
      avgCommitSize := ← R.genInt (.inclusive 1 (maxCommitSize / 2))
      commitConcurrency := ← R.genInt (.inclusive 1 maxCommitConcurrency)
      ioWorkers := ← R.genInt (.inclusive 1 maxIoWorkers)
      pageCacheSize := ← R.genInt (.inclusive 1 maxInMemoryCacheSize)
      leafCacheSize := ← R.genInt (.inclusive 1 maxInMemoryCacheSize)
      pageCacheUpperLevels := ← R.genInt (.inclusive 0 maxPageCacheUpperLevels)
      hashtableBuckets }
    let config ← swarmFeatures.foldlM (fun config feature => config.applySwarmFeature R feature)
      config
    pure (.ok config)

/-- `WorkloadConfiguration::is_rollback_enable`. -/
def WorkloadConfiguration.isRollbackEnable (self : WorkloadConfiguration) : Bool :=
  decide (self.rollback > 0)

/-- `WorkloadConfiguration::no_new_keys`. -/
def WorkloadConfiguration.noNewKeys (self : WorkloadConfiguration) : Bool :=
  decide (self.newKey = 0)

/-- `WorkloadConfiguration::enable_ensure_snapshot`. -/
def WorkloadConfiguration.enableEnsureSnapshot (self : WorkloadConfiguration) :
    WorkloadConfiguration :=
  { self with ensureSnapshot := true }

/-- `WorkloadConfiguration::should_ensure_snapshot`. -/
def WorkloadConfiguration.shouldEnsureSnapshot (self : WorkloadConfiguration) : Bool :=
  self.ensureSnapshot

/-! ### Draws -/

variable {R}

/-- Under the contract, a draw from `0.01..1.00` lies in it. -/
theorem Rng.Sound.genRangeF64_halfOpen (hR : R.Sound) (s : σ) :
  0.01 ≤ (R.genRangeF64 (.halfOpen 0.01 1.00) s).1 ∧ (R.genRangeF64 (.halfOpen 0.01 1.00) s).1 ≤ 1
  := by
  have h := hR.genRangeF64_contains (.halfOpen 0.01 1.00) s (by norm_num [GenRange.Nonempty])
  exact ⟨h.1, h.2.le.trans (by norm_num)⟩

/-- Under the contract, a draw from `0.01..=1.00` lies in it. -/
theorem Rng.Sound.genRangeF64_inclusive (hR : R.Sound) (s : σ) :
  0.01 ≤ (R.genRangeF64 (.inclusive 0.01 1.00) s).1 ∧
    (R.genRangeF64 (.inclusive 0.01 1.00) s).1 ≤ 1
  := by
  have h := hR.genRangeF64_contains (.inclusive 0.01 1.00) s (by norm_num [GenRange.Nonempty])
  exact ⟨h.1, h.2.trans (by norm_num)⟩

/-- Under the contract, a draw from `lo..=hi` with `lo ≤ hi` lies in it. -/
theorem Rng.Sound.genRangeInt_inclusive (hR : R.Sound) (lo hi : Nat) (h : lo ≤ hi) (s : σ) :
  lo ≤ (R.genRangeInt (.inclusive lo hi) s).1 ∧ (R.genRangeInt (.inclusive lo hi) s).1 ≤ hi
  := hR.genRangeInt_contains (.inclusive lo hi) s h

/-! ### The probabilities and the features that draw them -/

/-- The probabilities of a configuration. -/
inductive Probability
  | reads
  | readExistingKey
  | updateKey
  | deleteKey
  | newKey
  | overflow
  | commitCrash
  | rollback
  | rollbackCrash
  | enospcOn
  | enospcOff
  | latencyOn
  | latencyOff
deriving DecidableEq

/-- The feature that draws a probability. -/
def Probability.feature : Probability → SwarmFeatures
  | .reads | .readExistingKey => .read
  | .updateKey => .updateKeys
  | .deleteKey => .deleteKeys
  | .newKey => .newKeys
  | .overflow => .overflowValues
  | .commitCrash => .commitCrash
  | .rollback => .rollback
  | .rollbackCrash => .rollbackCrash
  | .enospcOn | .enospcOff => .trickfsEnospc
  | .latencyOn | .latencyOff => .trickfsLatencyInjection

/-- The value of a probability in a configuration. -/
def WorkloadConfiguration.probability (c : WorkloadConfiguration) : Probability → ℚ
  | .reads => c.reads
  | .readExistingKey => c.readExistingKey
  | .updateKey => c.updateKey
  | .deleteKey => c.deleteKey
  | .newKey => c.newKey
  | .overflow => c.overflow
  | .commitCrash => c.commitCrash
  | .rollback => c.rollback
  | .rollbackCrash => c.rollbackCrash
  | .enospcOn => c.enospcOn
  | .enospcOff => c.enospcOff
  | .latencyOn => c.latencyOn
  | .latencyOff => c.latencyOff

/-- A feature leaves the probabilities it does not draw as they were. -/
theorem probability_applySwarmFeature_of_ne (c : WorkloadConfiguration) (s : σ)
    {f : SwarmFeatures} {p : Probability} (h : f ≠ p.feature) :
  ((c.applySwarmFeature R f).run s).1.probability p = c.probability p
  := by
  cases f <;> cases p <;> first | rfl | exact absurd rfl h

/-- Under the contract, a feature draws each probability it sets from `0.01` to `1`. -/
theorem probability_applySwarmFeature_feature (hR : R.Sound) (c : WorkloadConfiguration)
    (s : σ) (p : Probability) :
  0.01 ≤ ((c.applySwarmFeature R p.feature).run s).1.probability p ∧
    ((c.applySwarmFeature R p.feature).run s).1.probability p ≤ 1
  := by
  cases p
  case reads | readExistingKey | commitCrash | rollback | rollbackCrash =>
    exact hR.genRangeF64_halfOpen _
  all_goals exact hR.genRangeF64_inclusive _

/-! ### The features one after another -/

/-- The configuration after the features `fs` apply to `c`, one after another. -/
def applySwarmFeatures (R : Rng σ) (fs : List SwarmFeatures) (c : WorkloadConfiguration) (s : σ) :
    WorkloadConfiguration :=
  ((fs.foldlM (fun (c : WorkloadConfiguration) feature => c.applySwarmFeature R feature) c).run
    s).1

@[simp]
theorem applySwarmFeatures_cons (f : SwarmFeatures) (fs : List SwarmFeatures)
    (c : WorkloadConfiguration) (s : σ) :
  applySwarmFeatures R (f :: fs) c s = applySwarmFeatures R fs
    ((c.applySwarmFeature R f).run s).1 ((c.applySwarmFeature R f).run s).2
  := rfl

/-- What every feature keeps, the features keep one after another. -/
theorem applySwarmFeatures_induction (P : WorkloadConfiguration → Prop)
    (hstep : ∀ (c : WorkloadConfiguration) f (s : σ), P c → P ((c.applySwarmFeature R f).run s).1)
    (fs : List SwarmFeatures) :
  ∀ c s, P c → P (applySwarmFeatures R fs c s)
  := by
  induction fs with
  | nil => exact fun _ _ hc => hc
  | cons f fs ih => exact fun c s hc => ih _ _ (hstep c f s hc)

/-- The features `fs` leave a probability whose feature is not among them as it was. -/
theorem probability_applySwarmFeatures_of_not_mem {p : Probability} {fs : List SwarmFeatures}
    (h : p.feature ∉ fs) (c : WorkloadConfiguration) (s : σ) :
  (applySwarmFeatures R fs c s).probability p = c.probability p
  := by
  induction fs generalizing c s with
  | nil => rfl
  | cons f fs ih =>
    rw [List.mem_cons, not_or] at h
    exact (ih h.2 _ _).trans (probability_applySwarmFeature_of_ne c s fun e => h.1 e.symm)

/-- Under the contract, after the features `fs` a probability whose feature is among them lies
from `0.01` to `1`: the last of them to draw it drew it from there. -/
theorem probability_applySwarmFeatures_of_mem (hR : R.Sound) {p : Probability}
    {fs : List SwarmFeatures} (h : p.feature ∈ fs) (c : WorkloadConfiguration) (s : σ) :
  0.01 ≤ (applySwarmFeatures R fs c s).probability p ∧
    (applySwarmFeatures R fs c s).probability p ≤ 1
  := by
  induction fs generalizing c s with
  | nil => exact absurd h (List.not_mem_nil _)
  | cons f fs ih =>
    by_cases hlater : p.feature ∈ fs
    · exact ih hlater _ _
    · obtain rfl : f = p.feature := ((List.mem_cons.mp h).resolve_right hlater).symm
      rw [applySwarmFeatures_cons, probability_applySwarmFeatures_of_not_mem hlater]
      exact probability_applySwarmFeature_feature hR c s p

/-! ### The bounds of a configuration -/

/-- The bounds the constants name for a configuration.  Rollbacks are off, or on and span from
`2` to `99` commits. -/
structure WorkloadConfiguration.InBounds (c : WorkloadConfiguration) : Prop where
  iterations : 1 ≤ c.iterations ∧ c.iterations ≤ maxIterations
  avgCommitSize : 1 ≤ c.avgCommitSize ∧ c.avgCommitSize ≤ maxCommitSize / 2
  commitConcurrency : 1 ≤ c.commitConcurrency ∧ c.commitConcurrency ≤ maxCommitConcurrency
  ioWorkers : 1 ≤ c.ioWorkers ∧ c.ioWorkers ≤ maxIoWorkers
  pageCacheSize : 1 ≤ c.pageCacheSize ∧ c.pageCacheSize ≤ maxInMemoryCacheSize
  leafCacheSize : 1 ≤ c.leafCacheSize ∧ c.leafCacheSize ≤ maxInMemoryCacheSize
  pageCacheUpperLevels : c.pageCacheUpperLevels ≤ maxPageCacheUpperLevels
  readConcurrency : 1 ≤ c.readConcurrency ∧ c.readConcurrency ≤ 64
  maxRollbackCommits : c.rollback = 0 ∧ c.maxRollbackCommits = 0 ∨
    0 < c.rollback ∧ 2 ≤ c.maxRollbackCommits ∧ c.maxRollbackCommits < 100

/-- Under the contract, every feature keeps a configuration within its bounds. -/
theorem inBounds_applySwarmFeature (hR : R.Sound) (c : WorkloadConfiguration)
    (f : SwarmFeatures) (s : σ) (hc : c.InBounds) :
  ((c.applySwarmFeature R f).run s).1.InBounds
  := by
  obtain ⟨h₁, h₂, h₃, h₄, h₅, h₆, h₇, h₈, h₉⟩ := hc
  cases f
  case read => exact ⟨h₁, h₂, h₃, h₄, h₅, h₆, h₇, hR.genRangeInt_inclusive 1 64 (by decide) _, h₉⟩
  case rollback =>
    -- the rollback probability and the number of commits are drawn together
    have hp := (hR.genRangeF64_halfOpen s).1
    have hn := hR.genRangeInt_contains (.halfOpen 2 100) (R.genRangeF64 (.halfOpen 0.01 1.00) s).2
      (by decide : 2 < 100)
    exact ⟨h₁, h₂, h₃, h₄, h₅, h₆, h₇, h₈, .inr ⟨lt_of_lt_of_le (by norm_num) hp, hn⟩⟩
  all_goals exact ⟨h₁, h₂, h₃, h₄, h₅, h₆, h₇, h₈, h₉⟩

/-- A feature leaves the trickfs flag, the hash table, the weights of new keys and the snapshot
flag as they were. -/
theorem frame_applySwarmFeature (c : WorkloadConfiguration) (f : SwarmFeatures) (s : σ) :
  ((c.applySwarmFeature R f).run s).1.trickfs = c.trickfs ∧
    ((c.applySwarmFeature R f).run s).1.hashtableBuckets = c.hashtableBuckets ∧
    ((c.applySwarmFeature R f).run s).1.newKeyDistribution = c.newKeyDistribution ∧
    ((c.applySwarmFeature R f).run s).1.ensureSnapshot = c.ensureSnapshot
  := by
  cases f <;> exact ⟨rfl, rfl, rfl, rfl⟩

/-- Under the contract, the features keep a configuration within its bounds. -/
theorem inBounds_applySwarmFeatures (hR : R.Sound) (fs : List SwarmFeatures)
    (c : WorkloadConfiguration) (s : σ) (hc : c.InBounds) :
  (applySwarmFeatures R fs c s).InBounds
  := applySwarmFeatures_induction _ (fun c f s => inBounds_applySwarmFeature hR c f s) fs c s hc

/-- The features leave the trickfs flag, the hash table, the weights of new keys and the snapshot
flag as they were. -/
theorem frame_applySwarmFeatures (fs : List SwarmFeatures) (c : WorkloadConfiguration) (s : σ) :
  (applySwarmFeatures R fs c s).trickfs = c.trickfs ∧
    (applySwarmFeatures R fs c s).hashtableBuckets = c.hashtableBuckets ∧
    (applySwarmFeatures R fs c s).newKeyDistribution = c.newKeyDistribution ∧
    (applySwarmFeatures R fs c s).ensureSnapshot = c.ensureSnapshot
  := by
  refine applySwarmFeatures_induction (fun c' => c'.trickfs = c.trickfs ∧
    c'.hashtableBuckets = c.hashtableBuckets ∧ c'.newKeyDistribution = c.newKeyDistribution ∧
    c'.ensureSnapshot = c.ensureSnapshot) (fun c' f s' hc' => ?_) fs c s ⟨rfl, rfl, rfl, rfl⟩
  obtain ⟨h₁, h₂, h₃, h₄⟩ := frame_applySwarmFeature (R := R) c' f s'
  exact ⟨h₁.trans hc'.1, h₂.trans hc'.2.1, h₃.trans hc'.2.2.1, h₄.trans hc'.2.2.2⟩

/-! ### The hash table and the weights of new keys -/

/-- The buckets of a hash table of `⌊q⌋₊` bytes, cast to `u32`, take at most `q` bytes, and one
more bucket would not fit unless the cast truncates. -/
theorem floor_div_pageSize_mod_bounds {q : ℚ} (hq : 0 ≤ q) :
  (((⌊q⌋₊ / pageSize % 2 ^ 32 * pageSize : Nat)) : ℚ) ≤ q ∧
    (q < 2 ^ 32 * pageSize → q < (((⌊q⌋₊ / pageSize % 2 ^ 32 + 1) * pageSize : Nat) : ℚ))
  := by
  refine ⟨?_, fun hlt => ?_⟩
  · calc (((⌊q⌋₊ / pageSize % 2 ^ 32 * pageSize : Nat)) : ℚ) ≤ (⌊q⌋₊ : ℚ) :=
          Nat.cast_le.mpr
            ((Nat.mul_le_mul_right _ (Nat.mod_le _ _)).trans (Nat.div_mul_le_self _ _))
      _ ≤ q := Nat.floor_le hq
  · have hfloor : ⌊q⌋₊ < 2 ^ 32 * pageSize := (Nat.floor_lt hq).mpr (by exact_mod_cast hlt)
    have hmod : ⌊q⌋₊ / pageSize % 2 ^ 32 = ⌊q⌋₊ / pageSize :=
      Nat.mod_eq_of_lt (Nat.div_lt_of_lt_mul (by rwa [Nat.mul_comm]))
    calc q < ⌊q⌋₊ + 1 := Nat.lt_floor_add_one q
      _ ≤ (((⌊q⌋₊ / pageSize % 2 ^ 32 + 1) * pageSize : Nat) : ℚ) := by
          rw [hmod]
          exact_mod_cast (by unfold pageSize; omega)

/-- There is a weight of `new_key_distribution` and each is positive, so `WeightedIndex::new`
accepts them and the `unwrap` after it never panics. -/
theorem newKeyWeights_pos : newKeyWeights ≠ [] ∧ ∀ w ∈ newKeyWeights, 0 < w
  := by
  refine ⟨by simp [newKeyWeights], fun w hw => ?_⟩
  obtain ⟨x, hx, rfl⟩ := List.mem_map.mp hw
  rw [List.mem_range'_1] at hx
  exact Nat.div_pos (by omega) (by omega)

/-- A workload needs trickfs exactly when one of the trickfs features was drawn. -/
theorem needsTrickfs_eq_true_iff (fs : List SwarmFeatures) :
  needsTrickfs fs = true ↔ .trickfsEnospc ∈ fs ∨ .trickfsLatencyInjection ∈ fs
  := by
  simp only [needsTrickfs, List.any_eq_true]
  constructor
  · rintro ⟨f, hf, hm⟩
    cases f
    case trickfsEnospc => exact .inl hf
    case trickfsLatencyInjection => exact .inr hf
    all_goals exact absurd hm Bool.false_ne_true
  · rintro (h | h) <;> exact ⟨_, h, rfl⟩

/-! ### A new configuration -/

/-- When the allocator cannot assign the resource the drawn features need, `new` returns its
error. -/
theorem new_eq_error_of_availBytes (alloc : ResourceAllocation) {s : σ} {e : ResourceExhaustion}
    (halloc : alloc.availBytes (needsTrickfs (R.newFeaturesSet s).1) = .error e) :
  ((WorkloadConfiguration.new R alloc).run s).1 = .error e
  := by
  unfold WorkloadConfiguration.new
  dsimp only [StateT.run, bind, StateT.bind]
  rw [halloc]
  rfl

/-- When the allocator assigns `availBytes` bytes, `new` returns the features applied to an
initial configuration: within its bounds under the contract, with every probability `0`, the
trickfs flag of the features, the hash table sized to the share of `availBytes`, the weights of
new keys and no snapshot. -/
theorem new_eq_ok_of_availBytes (alloc : ResourceAllocation) {s : σ} {availBytes : Nat}
    (halloc : alloc.availBytes (needsTrickfs (R.newFeaturesSet s).1) = .ok availBytes) :
  ∃ c₀ s₀, ((WorkloadConfiguration.new R alloc).run s).1 =
      .ok (applySwarmFeatures R (R.newFeaturesSet s).1 c₀ s₀) ∧
    (R.Sound → c₀.InBounds) ∧ (∀ p, c₀.probability p = 0) ∧
    c₀.trickfs = needsTrickfs (R.newFeaturesSet s).1 ∧
    c₀.hashtableBuckets = (if needsTrickfs (R.newFeaturesSet s).1 then
      ⌊(availBytes : ℚ) * hashTableSizeRatioMem⌋₊ else
      ⌊(availBytes : ℚ) * hashTableSizeRatioDisk⌋₊) / pageSize % 2 ^ 32 ∧
    c₀.newKeyDistribution = newKeyWeights ∧ c₀.ensureSnapshot = false
  := by
  unfold WorkloadConfiguration.new
  dsimp only [StateT.run, bind, StateT.bind]
  rw [halloc]
  -- the bounds are drawn before any feature applies
  refine ⟨_, _, rfl, fun hR => ⟨hR.genRangeInt_inclusive 1 maxIterations (by decide) _,
    hR.genRangeInt_inclusive 1 (maxCommitSize / 2) (by decide) _,
    hR.genRangeInt_inclusive 1 maxCommitConcurrency (by decide) _,
    hR.genRangeInt_inclusive 1 maxIoWorkers (by decide) _,
    hR.genRangeInt_inclusive 1 maxInMemoryCacheSize (by decide) _,
    hR.genRangeInt_inclusive 1 maxInMemoryCacheSize (by decide) _,
    (hR.genRangeInt_inclusive 0 maxPageCacheUpperLevels (by decide) _).2,
    ⟨le_rfl, show 1 ≤ 64 by decide⟩, .inl ⟨rfl, rfl⟩⟩,
    fun p => by cases p <;> rfl, rfl, rfl, rfl, rfl⟩

section New

variable {alloc : ResourceAllocation} {s : σ} {c : WorkloadConfiguration}

/-- A configuration `new` returns is the drawn features applied to an initial configuration
(`new_eq_ok_of_availBytes`). -/
theorem eq_applySwarmFeatures_of_new_eq_ok
    (h : ((WorkloadConfiguration.new R alloc).run s).1 = .ok c) :
  ∃ availBytes c₀ s₀, alloc.availBytes (needsTrickfs (R.newFeaturesSet s).1) = .ok availBytes ∧
    c = applySwarmFeatures R (R.newFeaturesSet s).1 c₀ s₀ ∧
    (R.Sound → c₀.InBounds) ∧ (∀ p, c₀.probability p = 0) ∧
    c₀.trickfs = needsTrickfs (R.newFeaturesSet s).1 ∧
    c₀.hashtableBuckets = (if needsTrickfs (R.newFeaturesSet s).1 then
      ⌊(availBytes : ℚ) * hashTableSizeRatioMem⌋₊ else
      ⌊(availBytes : ℚ) * hashTableSizeRatioDisk⌋₊) / pageSize % 2 ^ 32
  := by
  rcases halloc : alloc.availBytes (needsTrickfs (R.newFeaturesSet s).1) with e | availBytes
  · rw [new_eq_error_of_availBytes alloc halloc] at h
    cases h
  · obtain ⟨c₀, s₀, hrun, hc₀⟩ := new_eq_ok_of_availBytes alloc halloc
    rw [hrun] at h
    exact ⟨availBytes, c₀, s₀, rfl, (Except.ok.inj h).symm, hc₀.1, hc₀.2.1, hc₀.2.2.1,
      hc₀.2.2.2.1⟩

/-- The trickfs flag of a new configuration is whether its features need trickfs. -/
theorem trickfs_of_new_eq_ok (h : ((WorkloadConfiguration.new R alloc).run s).1 = .ok c) :
  c.trickfs = needsTrickfs (R.newFeaturesSet s).1
  := by
  obtain ⟨_, c₀, s₀, -, rfl, -, -, htrickfs, -⟩ := eq_applySwarmFeatures_of_new_eq_ok h
  exact (frame_applySwarmFeatures _ c₀ s₀).1.trans htrickfs

/-- A probability of a new configuration whose feature was not drawn is `0`. -/
theorem probability_of_new_eq_ok_of_not_mem
    (h : ((WorkloadConfiguration.new R alloc).run s).1 = .ok c) (p : Probability)
    (hp : p.feature ∉ (R.newFeaturesSet s).1) :
  c.probability p = 0
  := by
  obtain ⟨_, c₀, s₀, -, rfl, -, hzero, -⟩ := eq_applySwarmFeatures_of_new_eq_ok h
  rw [probability_applySwarmFeatures_of_not_mem hp, hzero]

/-- Under the contract, a probability of a new configuration whose feature was drawn lies from
`0.01` to `1`. -/
theorem probability_of_new_eq_ok_of_mem (hR : R.Sound)
    (h : ((WorkloadConfiguration.new R alloc).run s).1 = .ok c) (p : Probability)
    (hp : p.feature ∈ (R.newFeaturesSet s).1) :
  0.01 ≤ c.probability p ∧ c.probability p ≤ 1
  := by
  obtain ⟨_, c₀, s₀, -, rfl, -⟩ := eq_applySwarmFeatures_of_new_eq_ok h
  exact probability_applySwarmFeatures_of_mem hR hp c₀ s₀

/-- Under the contract, a probability of a new configuration is positive exactly when its
feature was drawn. -/
theorem pos_probability_iff_of_new_eq_ok (hR : R.Sound)
    (h : ((WorkloadConfiguration.new R alloc).run s).1 = .ok c) (p : Probability) :
  0 < c.probability p ↔ p.feature ∈ (R.newFeaturesSet s).1
  := by
  by_cases hp : p.feature ∈ (R.newFeaturesSet s).1
  · exact iff_of_true ((by norm_num : (0 : ℚ) < 0.01).trans_le
      (probability_of_new_eq_ok_of_mem hR h p hp).1) hp
  · rw [probability_of_new_eq_ok_of_not_mem h p hp]
    exact iff_of_false (lt_irrefl 0) hp

/-- Under the contract, a configuration `new` returns is within the bounds its constants name. -/
theorem inBounds_new (hR : R.Sound) (h : ((WorkloadConfiguration.new R alloc).run s).1 = .ok c) :
  c.InBounds
  := by
  obtain ⟨_, c₀, s₀, -, rfl, hc₀, -⟩ := eq_applySwarmFeatures_of_new_eq_ok h
  exact inBounds_applySwarmFeatures hR _ c₀ s₀ (hc₀ hR)

/-- The configuration `new` returns for `Rng.low [.rollback]` when the allocator assigns an empty
disk: every bound at its lower end, and rollbacks on over two commits. -/
def rollbackConfig : WorkloadConfiguration where
  bitboxSeed := ⟨List.replicate 16 0, List.length_replicate 16 0⟩
  iterations := 1
  commitConcurrency := 1
  ioWorkers := 1
  hashtableBuckets := ⌊((0 : Nat) : ℚ) * hashTableSizeRatioDisk⌋₊ / pageSize % 2 ^ 32
  warmUp := false
  preallocateHt := false
  pageCacheSize := 1
  leafCacheSize := 1
  prepopulatePageCache := false
  pageCacheUpperLevels := 0
  avgCommitSize := 1
  reads := 0
  readConcurrency := 1
  readExistingKey := 0
  updateKey := 0
  deleteKey := 0
  newKey := 0
  overflow := 0
  ensureChangeset := false
  sampleSnapshot := false
  newKeyDistribution := newKeyWeights
  commitCrash := 0
  rollback := 0.01
  maxRollbackCommits := 2
  rollbackCrash := 0
  trickfs := false
  enospcOn := 0
  enospcOff := 0
  latencyOn := 0
  latencyOff := 0
  ensureSnapshot := false

theorem new_low_rollback :
  ((WorkloadConfiguration.new (Rng.low [.rollback]) ⟨.error ⟨⟩, .ok 0⟩).run ()).1 =
    .ok rollbackConfig
  := rfl

theorem inBounds_new_rollback :
  (Rng.low [.rollback]).Sound ∧
    ((WorkloadConfiguration.new (Rng.low [.rollback]) ⟨.error ⟨⟩, .ok 0⟩).run ()).1 =
      .ok rollbackConfig ∧
    rollbackConfig.InBounds
  := ⟨Rng.low_sound _, new_low_rollback, inBounds_new (Rng.low_sound _) new_low_rollback⟩

/-- Under the contract, the trickfs flag of a configuration `new` returns says whether faults
are injected: without it the probabilities of `ENOSPC` and of latency are all `0` (as the field's
documentation says), and with it one of them is positive. -/
theorem enospc_latency_new (hR : R.Sound)
    (h : ((WorkloadConfiguration.new R alloc).run s).1 = .ok c) :
  (c.trickfs = false →
      c.enospcOn = 0 ∧ c.enospcOff = 0 ∧ c.latencyOn = 0 ∧ c.latencyOff = 0) ∧
    (c.trickfs = true → 0 < c.enospcOn ∨ 0 < c.latencyOn)
  := by
  rw [trickfs_of_new_eq_ok h]
  constructor
  · intro ht
    -- neither trickfs feature was drawn
    obtain ⟨henospc, hlatency⟩ :=
      not_or.mp ((needsTrickfs_eq_true_iff (R.newFeaturesSet s).1).not.mp (by simp [ht]))
    exact ⟨probability_of_new_eq_ok_of_not_mem h .enospcOn henospc,
      probability_of_new_eq_ok_of_not_mem h .enospcOff henospc,
      probability_of_new_eq_ok_of_not_mem h .latencyOn hlatency,
      probability_of_new_eq_ok_of_not_mem h .latencyOff hlatency⟩
  · intro ht
    exact ((needsTrickfs_eq_true_iff _).mp ht).imp
      (pos_probability_iff_of_new_eq_ok hR h .enospcOn).mpr
      (pos_probability_iff_of_new_eq_ok hR h .latencyOn).mpr

theorem enospc_latency_new_rollback :
  (Rng.low [.rollback]).Sound ∧
    ((WorkloadConfiguration.new (Rng.low [.rollback]) ⟨.error ⟨⟩, .ok 0⟩).run ()).1 =
      .ok rollbackConfig ∧
    (rollbackConfig.trickfs = false → rollbackConfig.enospcOn = 0 ∧ rollbackConfig.enospcOff = 0 ∧
      rollbackConfig.latencyOn = 0 ∧ rollbackConfig.latencyOff = 0) ∧
    (rollbackConfig.trickfs = true → 0 < rollbackConfig.enospcOn ∨ 0 < rollbackConfig.latencyOn)
  := ⟨Rng.low_sound _, new_low_rollback, enospc_latency_new (Rng.low_sound _) new_low_rollback⟩

/-- Under the contract, rollbacks are enabled in a configuration `new` returns exactly when the
rollback feature was drawn, and it inserts new keys exactly when that feature was drawn. -/
theorem isRollbackEnable_new_iff (hR : R.Sound)
    (h : ((WorkloadConfiguration.new R alloc).run s).1 = .ok c) :
  (c.isRollbackEnable = true ↔ .rollback ∈ (R.newFeaturesSet s).1) ∧
    (c.noNewKeys = true ↔ .newKeys ∉ (R.newFeaturesSet s).1)
  := by
  refine ⟨decide_eq_true_iff.trans (pos_probability_iff_of_new_eq_ok hR h .rollback),
    decide_eq_true_iff.trans ⟨fun hzero hmem => ?_, probability_of_new_eq_ok_of_not_mem h .newKey⟩⟩
  exact ((pos_probability_iff_of_new_eq_ok hR h .newKey).mpr hmem).ne' hzero

theorem isRollbackEnable_new_iff_rollback :
  (Rng.low [.rollback]).Sound ∧
    ((WorkloadConfiguration.new (Rng.low [.rollback]) ⟨.error ⟨⟩, .ok 0⟩).run ()).1 =
      .ok rollbackConfig ∧
    (rollbackConfig.isRollbackEnable = true ↔
      .rollback ∈ ((Rng.low [.rollback]).newFeaturesSet ()).1) ∧
    (rollbackConfig.noNewKeys = true ↔ .newKeys ∉ ((Rng.low [.rollback]).newFeaturesSet ()).1)
  := ⟨Rng.low_sound _, new_low_rollback,
    isRollbackEnable_new_iff (Rng.low_sound _) new_low_rollback⟩

/-- The hash table of a configuration `new` returns has the most buckets whose pages fit in the
share of the bytes assigned to the workload that it may use: they fit, and one more bucket would
not unless the share reaches `2 ^ 32` pages, where the cast to `u32` truncates. -/
theorem hashtableBuckets_new {availBytes : Nat}
    (h : ((WorkloadConfiguration.new R alloc).run s).1 = .ok c)
    (havail : alloc.availBytes c.trickfs = .ok availBytes) :
  ((c.hashtableBuckets * pageSize : Nat) : ℚ) ≤
      availBytes * (if c.trickfs then hashTableSizeRatioMem else hashTableSizeRatioDisk) ∧
    ((availBytes : ℚ) * (if c.trickfs then hashTableSizeRatioMem else hashTableSizeRatioDisk) <
        2 ^ 32 * pageSize →
      (availBytes : ℚ) * (if c.trickfs then hashTableSizeRatioMem else hashTableSizeRatioDisk) <
        ((c.hashtableBuckets + 1) * pageSize : Nat))
  := by
  obtain ⟨n, c₀, s₀, halloc, rfl, -, -, htrickfs, hbuckets⟩ := eq_applySwarmFeatures_of_new_eq_ok h
  obtain ⟨ht, hb, -⟩ := frame_applySwarmFeatures (R := R) (R.newFeaturesSet s).1 c₀ s₀
  rw [ht, htrickfs, halloc] at havail
  cases havail
  rw [hb, hbuckets, ht, htrickfs]
  cases needsTrickfs (R.newFeaturesSet s).1 <;>
    exact floor_div_pageSize_mod_bounds (mul_nonneg (Nat.cast_nonneg _)
      (by norm_num [hashTableSizeRatioDisk, hashTableSizeRatioMem]))

theorem hashtableBuckets_new_rollback :
  ((WorkloadConfiguration.new (Rng.low [.rollback]) ⟨.error ⟨⟩, .ok 0⟩).run ()).1 =
      .ok rollbackConfig ∧
    (⟨.error ⟨⟩, .ok 0⟩ : ResourceAllocation).availBytes rollbackConfig.trickfs = .ok 0 ∧
    ((rollbackConfig.hashtableBuckets * pageSize : Nat) : ℚ) ≤
      ((0 : Nat) : ℚ) * (if rollbackConfig.trickfs then hashTableSizeRatioMem
        else hashTableSizeRatioDisk) ∧
    (((0 : Nat) : ℚ) * (if rollbackConfig.trickfs then hashTableSizeRatioMem
          else hashTableSizeRatioDisk) < 2 ^ 32 * pageSize →
      ((0 : Nat) : ℚ) * (if rollbackConfig.trickfs then hashTableSizeRatioMem
          else hashTableSizeRatioDisk) < ((rollbackConfig.hashtableBuckets + 1) * pageSize : Nat))
  := ⟨new_low_rollback, rfl, hashtableBuckets_new new_low_rollback rfl⟩

end New

end Nomt

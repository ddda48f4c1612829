import Atomo.Data.Json
import Mathlib.Data.List.AList
import Mathlib.Data.List.MinMax

/-!
# The read cache

`ReadCache` of `cache.rs` as functions on the state under its mutex. Instants and durations count
nanoseconds, and `duration_since` saturates as subtraction on `Nat` does. The serialized length of a
value comes from `serde_json`, and the iteration order of a `HashMap` is a permutation of its
entries: both are parameters. The generation counter is an `AtomicU64` outside the mutex, so an
operation that loads it takes the loaded value.
-/

namespace Atomo.Cache

inductive CacheMode where
  | strong
  | eventual
  deriving DecidableEq

/-- `CachePolicyOverride`. -/
structure CachePolicyOverride where
  enabled : Option Bool := none
  ttlSecs : Option Nat := none
  ttiSecs : Option Nat := none
  refreshAfterSecs : Option Nat := none
  maxEntryBytes : Option Nat := none
  maxEntries : Option Nat := none
  maxBytes : Option Nat := none

/-- `CacheConfig` with its `Default`. -/
structure CacheConfig where
  enabled : Bool := true
  mode : CacheMode := .strong
  ttlSecs : Nat := 60
  ttiSecs : Option Nat := none
  cleanupIntervalSecs : Nat := 30
  maxEntries : Nat := 10000
  maxBytes : Nat := 64 * 1024 * 1024
  maxEntryBytes : Nat := 1024 * 1024
  refreshAfterSecs : Option Nat := none
  multiInstance : Bool := false
  models : List (String × CachePolicyOverride) := []

/-- `CacheConfig::validate`. -/
def CacheConfig.validate (cfg : CacheConfig) : Except String Unit :=
  if 1 ≤ cfg.cleanupIntervalSecs ∧ cfg.cleanupIntervalSecs ≤ 86400 then
    .ok ()
  else
    .error "cache cleanup_interval_secs must be in 1..=86400"

/-- `ReadCache::with_config`: an invalid configuration turns the cache off. -/
def CacheConfig.effective (cfg : CacheConfig) : CacheConfig :=
  match cfg.validate with
  | .ok () => cfg
  | .error _ => { cfg with enabled := false, cleanupIntervalSecs := 30 }

structure CacheEntry where
  generation : UInt64
  data : Json
  inserted : Nat
  accessed : Nat
  bytes : Nat
  ttl : Nat
  tti : Option Nat
  refresh : Option Nat

def CacheEntry.expired (e : CacheEntry) (now : Nat) : Bool :=
  e.ttl ≤ now - e.inserted || e.tti.any fun tti => tti ≤ now - e.accessed

structure CacheMetrics where
  relationalBypasses : Nat := 0
  hits : Nat := 0
  misses : Nat := 0
  expired : Nat := 0
  evicted : Nat := 0
  skipped : Nat := 0
  staleFillsRejected : Nat := 0
  invalidations : Nat := 0
  entries : Nat := 0
  estimatedBytes : Nat := 0

/-- The entries and counters under the mutex. -/
structure State where
  entries : AList fun _ : String => CacheEntry := ∅
  metrics : CacheMetrics := {}

/-- What the cache gets from outside: its configuration, `serde_json::to_vec(v).len()`, and the order
in which a `HashMap` with given entries is iterated. -/
structure Env where
  config : CacheConfig
  jsonBytes : Json → Option Nat
  iterate : List (Sigma fun _ : String => CacheEntry) → List (Sigma fun _ : String => CacheEntry)
  iterate_perm : ∀ l, (iterate l).Perm l

/-- `Duration::from_secs`. -/
def seconds (n : Nat) : Nat :=
  n * 1000000000

/-- `usize::saturating_add`. -/
def saturatingAdd (a b : Nat) : Nat :=
  min (a + b) (2 ^ 64 - 1)

/-- `key.split(':').next()`. -/
def modelOf (key : String) : String :=
  String.ofList (key.toList.takeWhile (· ≠ ':'))

variable (env : Env)

/-- `ReadCache::policy`. -/
def policy (key : String) : CachePolicyOverride :=
  (env.config.models.lookup (modelOf key)).getD {}

/-- `ReadCache::enabled`. -/
def enabled (key : String) : Bool :=
  env.config.enabled && !env.config.multiInstance && (policy env key).enabled.getD true

namespace State

/-- `ReadCache::remove`. -/
def remove (st : State) (key : String) : State :=
  let estimatedBytes :=
    match st.entries.lookup key with
    | some old => st.metrics.estimatedBytes - old.bytes
    | none => st.metrics.estimatedBytes
  let entries := st.entries.erase key
  { entries, metrics := { st.metrics with estimatedBytes, entries := entries.entries.length } }

def bumpExpired (st : State) : State :=
  { st with metrics := { st.metrics with expired := st.metrics.expired + 1 } }

def bumpEvicted (st : State) : State :=
  { st with metrics := { st.metrics with evicted := st.metrics.evicted + 1 } }

/-- `ReadCache::reclaim`. -/
def reclaim (st : State) (now : Nat) : State :=
  let keys := ((env.iterate st.entries.entries).filter fun e => e.2.expired now).map (·.1)
  keys.foldl (fun st key => (st.remove key).bumpExpired) st

/-- `get`, with the generation it loads under the lock. -/
def get (st : State) (key : String) (now : Nat) (current : UInt64) : Option Json × State :=
  if !enabled env key then
    (none, { st with metrics := { st.metrics with skipped := st.metrics.skipped + 1 } })
  else
    let stale := (st.entries.lookup key).any fun e =>
      e.expired now || (env.config.mode = .strong && e.generation ≠ current)
    let st := if stale then (st.remove key).bumpExpired else st
    let miss := { st with metrics := { st.metrics with misses := st.metrics.misses + 1 } }
    match st.entries.lookup key with
    | some entry =>
      if entry.refresh.any fun r => r ≤ now - entry.inserted then
        (none, miss)
      else
        (some entry.data,
          { entries := st.entries.insert key { entry with accessed := now }
            metrics := { st.metrics with hits := st.metrics.hits + 1 } })
    | none => (none, miss)

/-- The least recently accessed of some entries, the first one where there are several. -/
def leastRecent (es : List (Sigma fun _ : String => CacheEntry)) : Option String :=
  (es.argmin fun e => e.2.accessed).map (·.1)

/-- An eviction loop: while the cache is full, remove the least recently accessed candidate. Every
round removes an entry, so the number of entries bounds the rounds. -/
def evictWhile (full : State → Bool)
    (candidates : State → List (Sigma fun _ : String => CacheEntry)) : Nat → State → State
  | 0, st => st
  | rounds + 1, st =>
    if full st then
      match leastRecent (candidates st) with
      | some old => evictWhile full candidates rounds (st.remove old).bumpEvicted
      | none => st
    else
      st

/-- The size accounted for an entry: payload, key and a fixed overhead. -/
def entryBytes (key : String) (value : Json) : Nat :=
  match env.jsonBytes value with
  | some n => saturatingAdd (saturatingAdd n key.utf8ByteSize) 128
  | none => 2 ^ 64 - 1

/-- The values `set_if_generation` refuses to store. -/
def refuses (key : String) (bytes : Nat) : Bool :=
  let cfg := env.config
  let policy := policy env key
  !enabled env key || cfg.maxEntries = 0 || policy.maxEntries = some 0 ||
    min (policy.maxBytes.getD cfg.maxBytes) cfg.maxBytes < bytes ||
    min (policy.maxEntryBytes.getD cfg.maxEntryBytes) cfg.maxEntryBytes < bytes

/-- The first eviction loop of `set_if_generation`: the capacity of the whole cache. -/
def makeRoom (st : State) (bytes : Nat) : State :=
  evictWhile
    (fun st => env.config.maxEntries ≤ st.entries.entries.length ||
      env.config.maxBytes < saturatingAdd st.metrics.estimatedBytes bytes)
    (fun st => env.iterate st.entries.entries) st.entries.entries.length st

/-- The entries of the model a key belongs to. -/
def modelEntries (st : State) (key : String) : List (Sigma fun _ : String => CacheEntry) :=
  (env.iterate st.entries.entries).filter fun e =>
    (modelOf key ++ ":").toList.isPrefixOf e.1.toList

/-- The second eviction loop of `set_if_generation`: the capacity of the key's model. -/
def makeModelRoom (st : State) (key : String) (bytes : Nat) : State :=
  let policy := policy env key
  evictWhile
    (fun st =>
      let model := modelEntries env st key
      !(model.length < policy.maxEntries.getD env.config.maxEntries &&
        saturatingAdd (model.map (·.2.bytes)).sum bytes ≤
          policy.maxBytes.getD env.config.maxBytes))
    (fun st => modelEntries env st key) st.entries.entries.length st

/-- The last part of `set_if_generation`: the insertion. -/
def insertEntry (st : State) (key : String) (value : Json) (generation : UInt64)
    (bytes now : Nat) : State :=
  let cfg := env.config
  let policy := policy env key
  let entries := st.entries.insert key
    { generation, data := value, inserted := now, accessed := now, bytes
      ttl := seconds (policy.ttlSecs.getD cfg.ttlSecs)
      tti := (policy.ttiSecs.or cfg.ttiSecs).map seconds
      refresh := (policy.refreshAfterSecs.or cfg.refreshAfterSecs).map seconds }
  { entries
    metrics := { st.metrics with
      estimatedBytes := st.metrics.estimatedBytes + bytes
      entries := entries.entries.length } }

/-- `set_if_generation` after its check of the generation; `now` is the instant of its `reclaim` and
`later` the one of the insertion. -/
def fill (st : State) (key : String) (value : Json) (generation : UInt64) (now later : Nat) :
    State :=
  let bytes := entryBytes env key value
  if refuses env key bytes then
    { st with metrics := { st.metrics with skipped := st.metrics.skipped + 1 } }
  else
    let st := (st.reclaim env now).remove key
    let st := makeModelRoom env (makeRoom env st bytes) key bytes
    st.insertEntry env key value generation bytes later

/-- `set_if_generation` on a generation that is no longer current. -/
def rejectFill (st : State) : State :=
  { st with metrics := { st.metrics with staleFillsRejected := st.metrics.staleFillsRejected + 1 } }

/-- `invalidate_model` after its `fetch_add`. -/
def invalidateModel (st : State) : State :=
  let metrics := { st.metrics with invalidations := st.metrics.invalidations + 1 }
  if env.config.mode = .strong then
    { entries := ∅, metrics := { metrics with entries := 0, estimatedBytes := 0 } }
  else
    { st with metrics }

end State

end Atomo.Cache

import CriteriaQuery.Cache.Basic
import CriteriaQuery.Number.Binary64

/-!
# Metrics of a cache

What a cache has counted: look-ups that found a value or did not, values built, entries
evicted, and how full it is.
-/

namespace CriteriaQuery

/-- The counts of a cache. -/
structure CacheMetrics where
  hits : Nat
  misses : Nat
  builds : Nat
  evictions : Nat
  size : Nat
  maxEntries : Nat
deriving DecidableEq

/-- The counts of a cache. -/
def Cache.metrics {κ σ : Type} (c : Cache κ σ) : CacheMetrics :=
  ⟨c.hits, c.misses, c.builds, c.evictions, c.entries.length, c.policy.maxEntries⟩

/-- The part of the look-ups that found a value; zero without look-ups. -/
def CacheMetrics.hitRate (m : CacheMetrics) : Binary64 :=
  if m.hits + m.misses = 0 then .finite (.zero false)
  else
    match (Binary64.ofNat m.hits).toFinite?, (Binary64.ofNat (m.hits + m.misses)).toFinite? with
    | some a, some b => Binary64.div a b
    | _, _ => .nan

end CriteriaQuery

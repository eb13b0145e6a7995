import CriteriaQuery.Proofs.Cache.Recency
import CriteriaQuery.Proofs.Session.Cached

/-!
# Sessions in the order of their last use

A cache of sessions that is used by one caller at a time holds the keys that were asked for last.
Whatever is built, loaded and invalidated, its keys, its answers and its counts of entries and of
evictions are those of a list of keys that is as long as its capacity allows.

## Implementation notes

A caller that builds a session itself has errors of its own, so an error is that of a caller or
that of the catalog.
-/

namespace CriteriaQuery

/-- A visit to a cache of sessions. A caller builds a session, with what the build would end with,
or has it loaded. -/
inductive SessionVisit (ε : Type)
  | build (key : SessionKey) (result : Except ε Session)
  | load (loader : NodeLoader) (key : SessionKey)
  | invalidateKey (key : SessionKey)
  | invalidateEntity (entity : String)
  | clear

/-- The errors of a build play no part in what the cache does. -/
theorem Cache.getOrBuild?_mapError {κ σ ε ε' : Type} [DecidableEq κ] (c : Cache κ σ) (key : κ)
    (result : Except ε σ) (f : ε → ε') :
    c.getOrBuild? key (fun c => some (result.mapError f, c)) =
      (c.getOrBuild? key fun c => some (result, c)).map fun r => (r.1.mapError f, r.2) := by
  unfold getOrBuild?
  cases c.start? key with
  | none => rfl
  | some started =>
      obtain ⟨start, started⟩ := started
      cases start with
      | hit m => rfl
      | make slot => cases slot <;> cases result <;> rfl

namespace SessionVisit

variable {ε : Type}

/-- Makes a visit, by the function that is there for it. -/
def run? (c : SessionCache) :
    SessionVisit ε → Option (Answer Session (ε ⊕ CatalogError) × SessionCache)
  | .build key result =>
    (c.getOrBuild? key fun c => some (result, c)).map fun r =>
      (.ofResult (r.1.mapError Sum.inl), r.2)
  | .load loader key => (c.load? loader key).map fun r => (.ofResult (r.1.mapError Sum.inr), r.2)
  | .invalidateKey key => (c.invalidateKey? key).map fun c => (.done, c)
  | .invalidateEntity entity => (c.invalidateEntity? entity).map fun c => (.done, c)
  | .clear => c.clear?.map fun c => (.done, c)

/-- Makes visits one after the other. -/
def runAll? (c : SessionCache) :
    List (SessionVisit ε) → Option (List (Answer Session (ε ⊕ CatalogError)) × SessionCache)
  | [] => some ([], c)
  | v :: rest => do
    let (answer, c) ← v.run? c
    let (answers, c) ← runAll? c rest
    return (answer :: answers, c)

/-- A visit as a list of keys has it. -/
def visit : SessionVisit ε → Visit SessionKey Session (ε ⊕ CatalogError)
  | .build key result => .fetch key (result.mapError Sum.inl)
  | .load loader key => .fetch key ((Session.ofKey loader key).mapError Sum.inr)
  | .invalidateKey key => .invalidate fun k => decide (k = key)
  | .invalidateEntity entity => .invalidate fun k => k.entities.contains entity
  | .clear => .invalidate fun _ => true

theorem run?_eq (c : SessionCache) (v : SessionVisit ε) : v.run? c = v.visit.run? c := by
  cases v with
  | build key result =>
      rw [visit, Visit.run?, Cache.getOrBuild?_mapError, Option.map_map]
      rfl
  | load loader key =>
      rw [visit, Visit.run?, Cache.getOrBuild?_mapError, Option.map_map]
      rfl
  | invalidateKey key => rfl
  | invalidateEntity entity => rfl
  | clear => rfl

theorem runAll?_eq (c : SessionCache) (visits : List (SessionVisit ε)) :
    runAll? c visits = Visit.runAll? c (visits.map visit) := by
  induction visits generalizing c with
  | nil => rfl
  | cons v rest ih => simp [ runAll?, Visit.runAll?, run?_eq, ih]

end SessionVisit

/-- The list of keys after visits, none of them there at first, with the answers. -/
def SessionVisit.recency {ε : Type} (policy : CachePolicy) (visits : List (SessionVisit ε)) :
    List (Answer Session (ε ⊕ CatalogError)) × Recency SessionKey Session :=
  Recency.visitAll policy.capacity {} (visits.map SessionVisit.visit)

/-- A cache of sessions evicts the session that was asked for longest ago, in whatever order its
entries stand, and no more than that. -/
theorem SessionCache.exists_recency {ε : Type} (policy : CachePolicy)
    (hon : policy.enabled = true) (visits : List (SessionVisit ε)) :
    ∃ c : SessionCache, SessionVisit.runAll? { policy } visits =
        some ((SessionVisit.recency policy visits).1, c) ∧
      (c.entries.map Prod.fst).Perm (SessionVisit.recency policy visits).2.keys ∧
      (SessionVisit.recency policy visits).2.keys.Nodup ∧
      c.metrics.size = (SessionVisit.recency policy visits).2.keys.length ∧
      c.metrics.evictions = (SessionVisit.recency policy visits).2.evictions ∧
      c.metrics.size ≤ max policy.maxEntries 1 ∧
      ∀ entries : List (SessionKey × CacheEntry), entries.Perm c.entries →
        ({ c with entries } : SessionCache).victim?.map Prod.fst =
          (SessionVisit.recency policy visits).2.keys.getLast? := by
  obtain ⟨c, hrun, hrefines, hpolicy⟩ :=
    Visit.exists_runAll (Cache.refines_start policy) hon (visits.map SessionVisit.visit)
  refine ⟨c, ?_, hrefines.perm_keys, hrefines.keys_nodup, ?_, hrefines.evictions, ?_, ?_⟩
  · rw [SessionVisit.runAll?_eq, hrun]
    rfl
  · exact hrefines.length_eq.trans (List.length_map ..).symm
  · exact Nat.le_trans hrefines.bounded (Nat.le_of_eq (by rw [hpolicy]; rfl))
  · exact fun entries => hrefines.victim_eq

/-- The key of the sessions of one table, from a source. -/
def sourceKey (source : String) : SessionKey := .of source ⟨"Order", []⟩ .sql .mysql {}

/-- A key whose build has failed makes another one go like any key, and goes itself before one that
was asked for after it. -/
theorem SessionCache.exists_recency_full : ∃ first last, ∃ c : SessionCache,
    SessionVisit.runAll? { policy := ⟨true, 2⟩ } [.load anyTable (sourceKey "a"),
        .build (sourceKey "b") (.error ()), .load anyTable (sourceKey "a"),
        .load anyTable (sourceKey "c")] =
      some ([.value ⟨0, first⟩, .error (.inl ()), .value ⟨0, first⟩, .value ⟨1, last⟩], c) ∧
    (c.entries.map Prod.fst).Perm [sourceKey "c", sourceKey "a"] ∧ c.metrics.size = 2 ∧
    c.metrics.evictions = 1 ∧ c.victim?.map Prod.fst = some (sourceKey "a") := by
  obtain ⟨c, hrun, hkeys, -, hsize, hevictions, -, hvictim⟩ :=
    exists_recency ⟨true, 2⟩ rfl [.load anyTable (sourceKey "a"),
      .build (sourceKey "b") (.error ()), .load anyTable (sourceKey "a"),
      .load anyTable (sourceKey "c")]
  exact ⟨_, _, c, hrun, hkeys, hsize, hevictions, hvictim _ (.refl _)⟩

end CriteriaQuery

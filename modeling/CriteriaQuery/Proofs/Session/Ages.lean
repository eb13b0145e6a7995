import CriteriaQuery.Proofs.Cache.Ages
import CriteriaQuery.Proofs.Session.Recency

/-!
# Evictions and looks for sessions

A cache of sessions that is used by one caller at a time evicts the session whose latest fetch, a
build or a load, lies furthest back. A look for a session is no fetch, even when the session is
found and read: a session that is only read goes before one that was fetched after it. The session
that goes is the one that was used longest ago as long as it was not read after its latest fetch.

## Implementation notes

An access in the history stands with its answer, which tells whether a look has found its session.
-/

namespace CriteriaQuery

/-- An access to a cache of sessions: a visit, or a look for the session of a key. -/
inductive SessionAccess (ε : Type)
  | visit (v : SessionVisit ε)
  | get (key : SessionKey)

namespace SessionAccess

variable {ε : Type}

/-- Makes an access, by the function that is there for it. -/
def run? (c : SessionCache) :
    SessionAccess ε → Option (Answer Session (ε ⊕ CatalogError) × SessionCache)
  | .visit v => v.run? c
  | .get key => (c.get? key).map fun r => (.ofFound r.1, r.2)

/-- Makes accesses one after the other. -/
def runAll? (c : SessionCache) :
    List (SessionAccess ε) → Option (List (Answer Session (ε ⊕ CatalogError)) × SessionCache)
  | [] => some ([], c)
  | a :: rest => do
    let (answer, c) ← a.run? c
    let (answers, c) ← runAll? c rest
    return (answer :: answers, c)

/-- An access that was made, with its answer. -/
abbrev Answered (ε : Type) := SessionAccess ε × Answer Session (ε ⊕ CatalogError)

/-- Whether a call has asked for the session of a key, and was to have it made if there was none. -/
def fetches (key : SessionKey) : Answered ε → Bool
  | (.visit (.build k _), _) => k = key
  | (.visit (.load _ k), _) => k = key
  | _ => false

/-- Whether a call has used the session of a key: it has fetched it, or looked for it and got it. -/
def uses (key : SessionKey) : Answered ε → Bool
  | (.get k, .value _) => k = key
  | a => fetches key a

theorem uses_of_fetches {key : SessionKey} (a : Answered ε) (h : fetches key a = true) :
    uses key a = true := by
  obtain ⟨access, answer⟩ := a
  cases access with
  | visit v => exact h
  | get k => nomatch h

/-- The fetches of a history are those of the list of keys. -/
theorem fetches_visit_iff {key : SessionKey} {v : SessionVisit ε}
    {answer : Answer Session (ε ⊕ CatalogError)} :
    fetches key (.visit v, answer) = true ↔ ∃ result, v.visit = .fetch key result := by
  cases v <;> simp [fetches, SessionVisit.visit]

variable {c : SessionCache} {l : Recency SessionKey Session} {past : List (Answered ε)}

theorem exists_visit (h : c.Refines [] l) (hon : c.policy.enabled = true) (v : SessionVisit ε) :
    ∃ c', (visit v).run? c = some ((l.visit c.policy.capacity v.visit).1, c') ∧
      c'.Refines [] (l.visit c.policy.capacity v.visit).2 ∧ c'.policy = c.policy := by
  obtain ⟨c', hrun, hrefines, hpolicy⟩ := Visit.exists_run h hon v.visit
  exact ⟨c', (v.run?_eq c).trans hrun, hrefines, hpolicy⟩

theorem exists_get (h : c.Refines [] l) (hon : c.policy.enabled = true) (key : SessionKey) :
    ∃ found c', (get key : SessionAccess ε).run? c = some (.ofFound found, c') ∧
      c'.Refines [] l ∧ c'.policy = c.policy := by
  obtain ⟨found, c', hrun, hrefines, hpolicy⟩ := h.exists_get hon key
  exact ⟨found, c', congrArg (Option.map _) hrun, hrefines, hpolicy⟩

/-- An access gives an answer, and the list of keys goes on in the order of their latest fetches. -/
theorem exists_run (h : c.Refines [] l) (hon : c.policy.enabled = true)
    (haged : l.Aged fetches past) (a : SessionAccess ε) :
    ∃ answer c' l', a.run? c = some (answer, c') ∧ c'.Refines [] l' ∧ c'.policy = c.policy ∧
      l'.Aged fetches (past ++ [(a, answer)]) := by
  cases a with
  | visit v =>
      obtain ⟨c', hrun, hrefines, hpolicy⟩ := exists_visit h hon v
      exact ⟨_, c', _, hrun, hrefines, hpolicy, haged.visit v.visit fun _ => fetches_visit_iff⟩
  | get key =>
      obtain ⟨found, c', hrun, hrefines, hpolicy⟩ := exists_get h hon key
      exact ⟨_, c', l, hrun, hrefines, hpolicy, haged.concat (.refl _) fun _ _ => rfl⟩

theorem exists_runAll (h : c.Refines [] l) (hon : c.policy.enabled = true)
    (haged : l.Aged fetches past) (accesses : List (SessionAccess ε)) :
    ∃ answers c' l', runAll? c accesses = some (answers, c') ∧ c'.Refines [] l' ∧
      c'.policy = c.policy ∧ l'.Aged fetches (past ++ accesses.zip answers) := by
  induction accesses generalizing c l past with
  | nil => exact ⟨[], c, l, rfl, h, rfl, by simpa using haged⟩
  | cons a rest ih =>
      obtain ⟨answer, c₁, l₁, hrun, hrefines, hpolicy, haged₁⟩ := exists_run h hon haged a
      obtain ⟨answers, c', l', hrest, hrefines', hpolicy', haged'⟩ :=
        ih hrefines (hpolicy ▸ hon) haged₁
      refine ⟨answer :: answers, c', l', ?_, hrefines', hpolicy'.trans hpolicy, ?_⟩
      · simp [ runAll?, hrun, hrest]
      · simpa using haged'

/-- An access that evicts fetches a key that is not there, and the key that goes is the one to
evict, which was fetched before all others. -/
theorem exists_victim (h : c.Refines [] l) (hon : c.policy.enabled = true)
    (haged : l.Aged fetches past) {a : SessionAccess ε} {c' : SessionCache}
    {answer : Answer Session (ε ⊕ CatalogError)} (hrun : a.run? c = some (answer, c'))
    (hevicts : c'.evictions ≠ c.evictions) :
    ∃ key victim, fetches key (a, answer) = true ∧ key ∉ l.keys ∧ l.keys.getLast? = some victim ∧
      (c'.entries.map Prod.fst).Perm (key :: l.keys.erase victim) ∧
      c'.evictions = c.evictions + 1 ∧
      ∀ k ∈ l.keys, k ≠ victim → age (fetches k) past < age (fetches victim) past := by
  cases a with
  | get key =>
      obtain ⟨found, c₁, hget, hrefines, -⟩ := exists_get (ε := ε) h hon key
      obtain rfl : c₁ = c' := congrArg Prod.snd (Option.some.inj (hget.symm.trans hrun))
      exact absurd (hrefines.evictions.trans h.evictions.symm) hevicts
  | visit v =>
      obtain ⟨c₁, hvisit, hrefines, -⟩ := exists_visit h hon v
      obtain rfl : c₁ = c' := congrArg Prod.snd (Option.some.inj (hvisit.symm.trans hrun))
      rw [hrefines.evictions, h.evictions] at hevicts
      obtain ⟨key, result, victim, hfetch, hnew, hlast, hkeys, hmore, hothers⟩ :=
        haged.of_evicts h.keys_nodup (Cache.capacity_pos c.policy) hevicts
      refine ⟨key, victim, fetches_visit_iff.mpr ⟨result, hfetch⟩, hnew, hlast, ?_, ?_, hothers⟩
      · exact hkeys ▸ hrefines.perm_keys
      · rw [hrefines.evictions, h.evictions, hmore]

end SessionAccess

open SessionAccess

/-- Whatever sessions are fetched, looked for and invalidated, an access that evicts makes room for
a key that is not there, by the one key whose latest fetch lies furthest back. It is the key that
was used longest ago if its session was not read since. -/
theorem SessionCache.evicts_longest_unfetched {ε : Type} (policy : CachePolicy)
    (hon : policy.enabled = true) (accesses : List (SessionAccess ε)) (next : SessionAccess ε) :
    ∃ answers, ∃ c : SessionCache, ∃ answer, ∃ c' : SessionCache,
      SessionAccess.runAll? { policy } accesses = some (answers, c) ∧
      next.run? c = some (answer, c') ∧
      (c'.metrics.evictions ≠ c.metrics.evictions → ∃ key victim,
        c'.metrics.evictions = c.metrics.evictions + 1 ∧ fetches key (next, answer) = true ∧
        key ∉ c.entries.map Prod.fst ∧ victim ∈ c.entries.map Prod.fst ∧
        (c'.entries.map Prod.fst).Perm (key :: (c.entries.map Prod.fst).erase victim) ∧
        (∀ entries : List (SessionKey × CacheEntry), entries.Perm c.entries →
          ({ c with entries } : SessionCache).victim?.map Prod.fst = some victim) ∧
        ∀ k ∈ c.entries.map Prod.fst, k ≠ victim →
          age (fetches k) (accesses.zip answers) < age (fetches victim) (accesses.zip answers) ∧
          (age (uses victim) (accesses.zip answers) = age (fetches victim) (accesses.zip answers) →
            age (uses k) (accesses.zip answers) < age (uses victim) (accesses.zip answers))) := by
  have hstart : ({} : Recency SessionKey Session).Aged fetches ([] : List (Answered ε)) :=
    List.Pairwise.nil
  obtain ⟨answers, c, l, hrun, hrefines, hpolicy, haged⟩ :=
    exists_runAll (Cache.refines_start policy) hon hstart accesses
  have hon' : c.policy.enabled = true := hpolicy ▸ hon
  obtain ⟨answer, c', -, hnext, -, -, -⟩ := exists_run hrefines hon' haged next
  refine ⟨answers, c, answer, c', hrun, hnext, fun hevicts => ?_⟩
  obtain ⟨key, victim, hfetch, hnew, hlast, hkeys, hmore, hothers⟩ :=
    exists_victim hrefines hon' haged hnext hevicts
  have hmem (k : SessionKey) : k ∈ c.entries.map Prod.fst ↔ k ∈ l.keys :=
    hrefines.perm_keys.mem_iff
  refine ⟨key, victim, hmore, hfetch, mt (hmem key).mp hnew,
    (hmem victim).mpr (List.mem_of_getLast? hlast), ?_, ?_, ?_⟩
  · exact hkeys.trans ((hrefines.perm_keys.symm.erase victim).cons key)
  · exact fun entries hperm => (hrefines.victim_eq hperm).trans hlast
  · intro k hk hne
    have hlt := hothers k ((hmem k).mp hk) hne
    rw [List.nil_append] at hlt
    refine ⟨hlt, fun hunread => ?_⟩
    calc age (uses k) (accesses.zip answers)
      _ ≤ age (fetches k) (accesses.zip answers) := age_le uses_of_fetches _
      _ < age (fetches victim) (accesses.zip answers) := hlt
      _ = age (uses victim) (accesses.zip answers) := hunread.symm

/-- Two sessions are loaded, and the first one is read. -/
def readFirst : List (SessionAccess Unit) :=
  [.visit (.load anyTable (sourceKey "a")), .visit (.load anyTable (sourceKey "b")),
    .get (sourceKey "a")]

/-- Another one is loaded. -/
def thenThird : SessionAccess Unit := .visit (.load anyTable (sourceKey "c"))

/-- The next one to load makes the session go that was loaded first, though it was read last. -/
theorem SessionCache.evicts_longest_unfetched_read :
    ∃ first second third, ∃ c c' : SessionCache,
      SessionAccess.runAll? { policy := ⟨true, 2⟩ } readFirst =
        some ([.value ⟨0, first⟩, .value ⟨1, second⟩, .value ⟨0, first⟩], c) ∧
      thenThird.run? c = some (.value ⟨2, third⟩, c') ∧
      c'.metrics.evictions = 1 ∧ c.victim?.map Prod.fst = some (sourceKey "a") := by
  obtain ⟨answers, c, answer, c', hrun, hnext, hevicts⟩ :=
    evicts_longest_unfetched ⟨true, 2⟩ rfl readFirst thenThird
  obtain ⟨first, second, third, d, d', hrun', hnext', hkeys, hbefore, hafter⟩ :
      ∃ first second third, ∃ d d' : SessionCache,
        SessionAccess.runAll? { policy := ⟨true, 2⟩ } readFirst =
          some ([.value ⟨0, first⟩, .value ⟨1, second⟩, .value ⟨0, first⟩], d) ∧
        thenThird.run? d = some (.value ⟨2, third⟩, d') ∧
        d.entries.map Prod.fst = [sourceKey "a", sourceKey "b"] ∧
        d.metrics.evictions = 0 ∧ d'.metrics.evictions = 1 :=
    ⟨_, _, _, _, _, rfl, rfl, rfl, rfl, rfl⟩
  obtain ⟨rfl, rfl⟩ := Prod.mk.inj (Option.some.inj (hrun.symm.trans hrun'))
  obtain ⟨rfl, rfl⟩ := Prod.mk.inj (Option.some.inj (hnext.symm.trans hnext'))
  refine ⟨first, second, third, c, c', hrun, hnext, hafter, ?_⟩
  obtain ⟨-, victim, -, -, -, hmem, -, hvictim, hothers⟩ :=
    hevicts (by rw [hbefore, hafter]; exact Nat.one_ne_zero)
  rw [hkeys] at hmem hothers
  rw [hvictim c.entries (.refl _)]
  rcases List.mem_pair.mp hmem with rfl | rfl
  · rfl
  · obtain ⟨hlt, -⟩ := hothers (sourceKey "a") (by simp) (by decide)
    exact absurd hlt (by decide : ¬ 2 < 1)

/-- The session that goes was used after one that stays: by a look, which does not count. -/
theorem SessionCache.evicts_used_after_kept :
    ∃ answers, ∃ c : SessionCache, ∃ answer, ∃ c' : SessionCache,
      SessionAccess.runAll? { policy := ⟨true, 2⟩ } readFirst = some (answers, c) ∧
      thenThird.run? c = some (answer, c') ∧
      c.entries.map Prod.fst = [sourceKey "a", sourceKey "b"] ∧
      c'.entries.map Prod.fst = [sourceKey "b", sourceKey "c"] ∧
      age (uses (sourceKey "a")) (readFirst.zip answers) <
        age (uses (sourceKey "b")) (readFirst.zip answers) :=
  ⟨_, _, _, _, rfl, rfl, rfl, rfl, by decide⟩

end CriteriaQuery

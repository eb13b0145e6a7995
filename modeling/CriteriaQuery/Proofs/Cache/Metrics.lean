import CriteriaQuery.Cache.Metrics
import CriteriaQuery.Proofs.Cache.Runs

/-!
# What a cache counts

Look-ups are counted as hits or misses, where a slot is read by calls that make values, and after
it has been unlocked by calls that do not. Builds are counted where they end with a value if values
are kept, and where they start if they are not, so a cache that is not enabled counts builds that
fail as well.

## Implementation notes

A count is told by the history: it is the number of the events that are counted, less those whose
calls have yet to count them. What starts, lands and fails is in balance with the builds that are
under way.
-/

namespace CriteriaQuery

variable {κ σ ε : Type}

/-! ### What is counted -/

namespace Happening

/-- Whether a call finds a value in the slot of its key. -/
def isHit : Happening κ σ ε → Bool
  | .reads _ (some _) => true
  | _ => false

/-- Whether a call finds no value in the slot of its key. -/
def isMiss : Happening κ σ ε → Bool
  | .reads _ none => true
  | _ => false

/-- Whether a call starts to make a value. -/
def isStart : Happening κ σ ε → Bool
  | .builds _ => true
  | _ => false

/-- Whether a build gives a value. -/
def isLanding : Happening κ σ ε → Bool
  | .lands _ _ => true
  | _ => false

/-- Whether a build gives an error. -/
def isFailure : Happening κ σ ε → Bool
  | .fails _ _ => true
  | _ => false

/-- Whether something counts as a build. -/
def isBuilt (policy : CachePolicy) (x : Happening κ σ ε) : Bool :=
  if policy.enabled then x.isLanding else x.isStart

/-- Whether a key is forgotten. -/
def IsForgetting : Happening κ σ ε → Prop
  | .forgets _ => True
  | _ => False

theorem isForgetting_of_mem {keys : List κ} :
    ∀ x ∈ keys.map (Happening.forgets (σ := σ) (ε := ε)), x.IsForgetting := by
  simp [IsForgetting]

/-- Nothing is counted where nothing happens but that keys are forgotten. -/
theorem countP_forgets {p : Happening κ σ ε → Bool} (hp : ∀ key, p (.forgets key) = false)
    {hs : List (Happening κ σ ε)} (hforgets : ∀ x ∈ hs, x.IsForgetting) : hs.countP p = 0 := by
  apply List.countP_eq_zero.mpr
  intro x hx
  cases x with
  | forgets key => simp [hp]
  | _ => exact (hforgets _ hx).elim

theorem countP_map_forgets {p : Happening κ σ ε → Bool} (hp : ∀ key, p (.forgets key) = false)
    (keys : List κ) : (keys.map Happening.forgets).countP p = 0 :=
  countP_forgets hp isForgetting_of_mem

end Happening

/-- Whether a value is being made. -/
def Phase.isBuilding : Phase σ ε → Bool
  | .building _ => true
  | _ => false

@[simp] theorem Phase.isBuilding_next (answer : Answer σ ε) (is : List Nat) :
    (next answer is).isBuilding = false := by
  cases is <;> rfl

/-- Whether a call has looked into a slot, with or without finding a value, and has not counted
that. -/
def Phase.owes (found : Bool) : Phase σ ε → Bool
  | .looked _ answer => answer.isValue == found
  | .uncounted _ answer => answer.isValue == found
  | _ => false

@[simp] theorem Phase.owes_next (found : Bool) (answer : Answer σ ε) (is : List Nat) :
    (next answer is).owes found = false := by
  cases is <;> rfl

/-- Whether a call for the value of a key is at no slot: it makes the value for its caller only. -/
def Phase.Bypasses : Phase σ ε → Prop
  | .begun => True
  | .building none => True
  | .ended _ => True
  | _ => False

namespace Cache

open Happening (countP_map_forgets)

/-- The counts of look-ups and builds. -/
def counts (c : Cache κ σ) : Nat × Nat × Nat := (c.hits, c.misses, c.builds)

/-- What has happened is added to the counts, unless the call has yet to count it. -/
structure Adds (phase : Phase σ ε) (c : Cache κ σ) (hs : List (Happening κ σ ε))
    (phase' : Phase σ ε) (c' : Cache κ σ) : Prop where
  hits : c'.hits + (phase'.owes true).toNat =
    c.hits + (phase.owes true).toNat + hs.countP Happening.isHit
  misses : c'.misses + (phase'.owes false).toNat =
    c.misses + (phase.owes false).toNat + hs.countP Happening.isMiss
  builds : c'.builds = c.builds + hs.countP (Happening.isBuilt c.policy)

variable {c c' : Cache κ σ} {request : Request κ} {phase phase' : Phase σ ε}
  {hs : List (Happening κ σ ε)} {late : List Nat}

/-- Nothing is added where nothing happens but that keys are forgotten. -/
theorem adds_of_counts (hcounts : c'.counts = c.counts)
    (howes : ∀ found, phase'.owes found = phase.owes found) (hforgets : ∀ x ∈ hs, x.IsForgetting) :
    Adds phase c hs phase' c' := by
  obtain ⟨hhits, hmisses, hbuilds⟩ : c'.hits = c.hits ∧ c'.misses = c.misses ∧
      c'.builds = c.builds := by simpa [counts] using hcounts
  constructor
  · rw [hhits, howes, Happening.countP_forgets (fun _ => rfl) hforgets, Nat.add_zero]
  · rw [hmisses, howes, Happening.countP_forgets (fun _ => rfl) hforgets, Nat.add_zero]
  · have hbuilt : ∀ key, (Happening.forgets key : Happening κ σ ε).isBuilt c.policy = false :=
      fun key => ite_self _
    rw [hbuilds, Happening.countP_forgets hbuilt hforgets, Nat.add_zero]

variable [DecidableEq κ]

theorem counts_of_makesRoom {held : List Nat} (hroom : MakesRoom held c c') :
    c'.counts = c.counts := by
  induction hroom with
  | room => rfl
  | crowded => rfl
  | evict _ _ hevict _ ih =>
      obtain ⟨_, -, rfl⟩ := Option.map_eq_some_iff.mp hevict
      exact ih

theorem counts_of_takesSlot {key : κ} {now i : Nat} (htakes : TakesSlot late key now c i c') :
    c'.counts = c.counts := by
  cases htakes with
  | present => rfl
  | added _ hroom =>
      have hcounts := counts_of_makesRoom hroom
      exact hcounts

theorem counts_find {key : κ} {i : Nat} (hfind : c.find? key = some (i, c')) :
    c'.counts = c.counts := by
  obtain ⟨e, -, heq⟩ := Option.map_eq_some_iff.mp hfind
  obtain ⟨-, rfl⟩ := Prod.mk.inj heq
  rfl

omit [DecidableEq κ] in
theorem counts_sweepOf {idle : CacheEntry → Bool} {matching : κ → Bool} {busy : List Nat}
    (hsweep : c.sweepOf idle matching = (busy, c')) : c'.counts = c.counts := by
  obtain ⟨-, rfl⟩ := Prod.mk.inj hsweep
  exact apply_foldl_eq hold counts (fun _ _ => rfl) _ _

/-- A section counts what happens in it or what its call has yet to count, as long as calls keep to
what the policy says. -/
theorem Section.adds (hkept : c.policy.enabled = true → phase ≠ .building none)
    (hunkept : c.policy.enabled = false → ∀ key, request = .fetch key → phase.Bypasses)
    (hsection : Section late request phase c hs phase' c') : Adds phase c hs phase' c' := by
  have hon : (∃ key, request = .fetch key) → ¬ phase.Bypasses → c.policy.enabled = true := by
    rintro ⟨key, hrequest⟩ hphase
    by_contra hoff
    exact hphase (hunkept (by simpa using hoff) key hrequest)
  cases hsection with
  | bypass hoff =>
      exact ⟨rfl, rfl, by simp [Happening.isBuilt, hoff, countBuild, Happening.isStart]⟩
  | tick => exact adds_of_counts rfl (fun _ => rfl) nofun
  | acquire htakes =>
      exact adds_of_counts (counts_of_takesSlot htakes) (fun _ => rfl) Happening.isForgetting_of_mem
  | hit hlock =>
      obtain ⟨-, rfl⟩ := lock?_eq_some_iff.mp hlock
      refine ⟨rfl, rfl, ?_⟩
      simp [Happening.isBuilt, Happening.isLanding, Happening.isStart, Cache.count, lock,
        modifySlot]
  | @miss key i _ _ hlock =>
      obtain ⟨-, rfl⟩ := lock?_eq_some_iff.mp hlock
      have hon := hon ⟨key, rfl⟩ id
      refine ⟨rfl, rfl, ?_⟩
      simp [Happening.isBuilt, hon, Happening.isLanding, Cache.count, lock, modifySlot]
  | @land key i _ _ _ _ hmake =>
      obtain ⟨-, rfl⟩ := Prod.mk.inj hmake
      have hon := hon ⟨key, rfl⟩ id
      refine ⟨rfl, rfl, ?_⟩
      simp [Happening.isBuilt, hon, Happening.isLanding, countBuild, fill, modifySlot]
  | fail => exact ⟨rfl, rfl, by simp [Happening.isBuilt, Happening.isLanding, Happening.isStart]⟩
  | landUnkept hmake =>
      obtain ⟨-, rfl⟩ := Prod.mk.inj hmake
      have hoff : c.policy.enabled = false := by
        by_contra hon
        exact hkept (by simpa using hon) rfl
      exact ⟨rfl, rfl, by simp [Happening.isBuilt, hoff, Happening.isStart]⟩
  | failUnkept =>
      exact ⟨rfl, rfl, by simp [Happening.isBuilt, Happening.isLanding, Happening.isStart]⟩
  | absent => exact adds_of_counts rfl (fun _ => rfl) nofun
  | find _ hfind => exact adds_of_counts (counts_find hfind) (fun _ => rfl) nofun
  | @look _ i _ c' hlock =>
      obtain ⟨-, rfl⟩ := lock?_eq_some_iff.mp hlock
      -- the call owes what it has found
      cases hcontent : ((c.lock i).slot i).content with
      | none =>
          refine ⟨rfl, rfl, ?_⟩
          simp [Happening.isBuilt, Happening.isLanding, Happening.isStart, lock, modifySlot]
      | some m =>
          refine ⟨rfl, rfl, ?_⟩
          simp [Happening.isBuilt, Happening.isLanding, Happening.isStart, lock, modifySlot]
  | release => exact adds_of_counts rfl (fun _ => rfl) nofun
  | @count _ i answer =>
      cases hvalue : answer.isValue with
      | false => constructor <;> simp [Cache.count, Phase.owes, hvalue]
      | true => constructor <;> simp [Cache.count, Phase.owes, hvalue]
  | sweep _ hsweep =>
      exact adds_of_counts (counts_sweepOf hsweep) (Phase.owes_next · _ _)
        Happening.isForgetting_of_mem
  | empty hlock =>
      obtain ⟨-, rfl⟩ := lock?_eq_some_iff.mp hlock
      exact adds_of_counts rfl (fun _ => rfl) Happening.isForgetting_of_mem
  | unlock => exact adds_of_counts rfl (fun _ => rfl) nofun
  | drop => exact adds_of_counts rfl (Phase.owes_next · _ _) nofun

/-- Without values that are kept a call for the value of a key comes to no slot. -/
theorem Section.bypasses {key : κ} (hoff : c.policy.enabled = false) (hphase : phase.Bypasses)
    (hsection : Section late (.fetch key) phase c hs phase' c') : phase'.Bypasses := by
  cases hsection with
  | bypass => trivial
  | tick hon => exact absurd hon (by simp [hoff])
  | landUnkept => trivial
  | failUnkept => trivial
  | _ => exact hphase.elim

/-- A build that starts is under way until it lands or fails. -/
theorem Section.balance (hsection : Section late request phase c hs phase' c') :
    phase'.isBuilding.toNat + hs.countP Happening.isLanding + hs.countP Happening.isFailure =
      phase.isBuilding.toNat + hs.countP Happening.isStart := by
  cases hsection with
  | acquire =>
      rw [countP_map_forgets fun _ => rfl, countP_map_forgets fun _ => rfl,
        countP_map_forgets fun _ => rfl]
      rfl
  | sweep =>
      rw [countP_map_forgets fun _ => rfl, countP_map_forgets fun _ => rfl,
        countP_map_forgets fun _ => rfl, Phase.isBuilding_next]
      rfl
  | empty =>
      rw [countP_map_forgets fun _ => rfl, countP_map_forgets fun _ => rfl,
        countP_map_forgets fun _ => rfl]
      rfl
  | drop =>
      rw [Phase.isBuilding_next]
      rfl
  | _ => rfl

end Cache

namespace Shared

variable {s t : Shared κ σ ε} {h es : List (Event κ σ ε)} {policy : CachePolicy} {j : Nat}
  {call : Call κ σ ε}

/-! ### The counts of runs -/

/-- The number of builds that have given a value. -/
def landed (h : List (Event κ σ ε)) : Nat := h.countP (·.2.isLanding)

/-- The number of builds that have given an error. -/
def failed (h : List (Event κ σ ε)) : Nat := h.countP (·.2.isFailure)

/-- The number of builds that have started. -/
def started (h : List (Event κ σ ε)) : Nat := h.countP (·.2.isStart)

/-- The number of look-ups, with or without a value, that have yet to be counted. -/
def owed (s : Shared κ σ ε) (found : Bool) : Nat := s.calls.countP (·.phase.owes found)

/-- The number of builds that are under way. -/
def building (s : Shared κ σ ε) : Nat := s.calls.countP (·.phase.isBuilding)

theorem countP_events (p : Happening κ σ ε → Bool) (j : Nat) (hs : List (Happening κ σ ε)) :
    (hs.map (j, ·)).countP (fun e => p e.2) = hs.countP p := List.countP_map

theorem countP_eq_sum_map {α : Type} (p : α → Bool) (as : List α) :
    as.countP p = (as.map fun a => (p a).toNat).sum := by
  induction as with
  | nil => rfl
  | cons a as ih => cases hp : p a <;> simp [hp, ih, Nat.add_comm]

variable [DecidableEq κ]

/-- Without values that are kept no call for the value of a key comes to a slot. -/
theorem bypasses_of_steps (hoff : policy.enabled = false) (hsteps : Steps (start policy) h s)
    (hcall : s.calls[j]? = some call) {key : κ} (hrequest : call.request = .fetch key) :
    call.phase.Bypasses := by
  induction hsteps generalizing call with
  | refl => nomatch hcall
  | tail hsteps hstep ih =>
      have hpolicy := policy_of_steps (sound_start policy) hsteps
      rcases hstep.call_cases hcall with
        hcall | ⟨-, hbegun⟩ | ⟨before, _, hbefore, hsame, -, hsection⟩
      · exact ih hcall hrequest
      · exact hbegun ▸ trivial
      · rw [hrequest] at hsection hsame
        exact hsection.bypasses (hpolicy ▸ hoff) (ih hbefore hsame)

/-- A history tells what a cache has counted, and what its calls have yet to count. -/
structure Counted (policy : CachePolicy) (h : List (Event κ σ ε)) (s : Shared κ σ ε) : Prop where
  hits : s.cache.hits + s.owed true = h.countP (·.2.isHit)
  misses : s.cache.misses + s.owed false = h.countP (·.2.isMiss)
  builds : s.cache.builds = h.countP (·.2.isBuilt policy)

omit [DecidableEq κ] in
theorem owed_set (c : Cache κ σ) (phase : Phase σ ε) (late : List Nat)
    (hcall : s.calls[j]? = some call) (found : Bool) :
    (⟨c, s.calls.set j { call with phase }, late⟩ : Shared κ σ ε).owed found +
      (call.phase.owes found).toNat = s.owed found + (phase.owes found).toNat := by
  simp only [owed, countP_eq_sum_map]
  exact sum_map_set (fun call => (call.phase.owes found).toNat) { call with phase } hcall

theorem counted_of_steps (hsteps : Steps (start policy) h s) : Counted policy h s := by
  induction hsteps with
  | refl => exact ⟨rfl, rfl, rfl⟩
  | @tail t u h es hsteps hstep ih =>
      have hproper := proper_of_steps hsteps
      have hpolicy : t.cache.policy = policy := policy_of_steps (sound_start policy) hsteps
      cases hstep with
      | begin =>
          have howed : ∀ request found, (t.begin request).owed found = t.owed found := by
            simp [owed, Shared.begin, Phase.owes]
          rw [List.append_nil]
          exact ⟨howed _ _ ▸ ih.hits, howed _ _ ▸ ih.misses, ih.builds⟩
      | @advance j call hs phase c hcall hsection =>
          -- where values are kept no build is without a slot, and where they are not all are
          have hadds := hsection.adds (fun hon => hproper.kept hon j call hcall)
            fun hoff key hrequest => bypasses_of_steps (hpolicy ▸ hoff) hsteps hcall hrequest
          have howed := owed_set c phase (Phase.lateAfter t.late call.phase phase) hcall
          constructor
          · have := howed true
            have := hadds.hits
            rw [List.countP_append, ← ih.hits, countP_events]
            dsimp only
            omega
          · have := howed false
            have := hadds.misses
            rw [List.countP_append, ← ih.misses, countP_events]
            dsimp only
            omega
          · rw [List.countP_append, ← ih.builds, countP_events, ← hpolicy, hadds.builds]

/-- Whatever builds have started have landed, have failed, or are under way. -/
theorem started_eq (hsteps : Steps (start policy) h s) :
    started h = landed h + failed h + s.building := by
  unfold started landed failed building
  induction hsteps with
  | refl => rfl
  | @tail t u h es hsteps hstep ih =>
      rw [countP_eq_sum_map _ t.calls] at ih
      simp only [List.countP_append, countP_eq_sum_map _ u.calls]
      cases hstep with
      | begin =>
          simpa [Shared.begin, Phase.isBuilding] using ih
      | @advance j call hs phase c hcall hsection =>
          have hset := sum_map_set (fun call => call.phase.isBuilding.toNat)
            { call with phase } hcall
          have hbalance := hsection.balance
          simp only [countP_events]
          dsimp only at hset
          omega

/-- The builds that a cache has counted are those that have given a value, and no others, if values
are kept; if not, those that have given an error or are under way are counted as well. -/
theorem builds_eq_of_steps (hsteps : Steps (start policy) h s) :
    (policy.enabled = true → s.cache.metrics.builds = landed h) ∧
      (policy.enabled = false → s.cache.metrics.builds = landed h + failed h + s.building) ∧
      (s.cache.metrics.builds = landed h ↔
        policy.enabled = true ∨ failed h = 0 ∧ s.building = 0) := by
  have hbuilds : s.cache.metrics.builds = h.countP (·.2.isBuilt policy) :=
    (counted_of_steps hsteps).builds
  cases hpolicy : policy.enabled with
  | true =>
      have hlanded : s.cache.metrics.builds = landed h := by
        simp only [Happening.isBuilt, hpolicy, if_true] at hbuilds
        exact hbuilds
      exact ⟨fun _ => hlanded, nofun, by simp [hlanded]⟩
  | false =>
      have hstarted : s.cache.metrics.builds = landed h + failed h + s.building := by
        rw [← started_eq hsteps]
        simp only [Happening.isBuilt, hpolicy] at hbuilds
        exact hbuilds
      refine ⟨nofun, fun _ => hstarted, ?_⟩
      simp only [hstarted, Bool.false_eq_true, false_or]
      omega

/-- What happens in a build that fails. -/
def failing : List (Event Nat Nat Unit) := [(0, .builds 5), (0, .fails 5 ())]

/-- A build has failed in a cache that keeps no values. -/
def oneFailed : Shared Nat Nat Unit where
  cache := { policy := ⟨false, 10⟩, builds := 1 }
  calls := [⟨.fetch 5, .ended (.error ())⟩]

theorem steps_oneFailed : Steps (start ⟨false, 10⟩) failing oneFailed := by
  have begun := (Steps.refl (start ⟨false, 10⟩ : Shared Nat Nat Unit)).tail (.begin _ (.fetch 5))
  have builds := begun.tail (.advance (j := 0) rfl (.bypass rfl))
  have fails := builds.tail (.advance (j := 0) rfl (.failUnkept ()))
  exact fails

/-- What happens in a build that fails and in one that does not, where values are kept. -/
def retrying : List (Event Nat Nat Unit) :=
  [(0, .reads 5 none), (0, .builds 5), (0, .fails 5 ()), (1, .reads 5 none), (1, .builds 5),
    (1, .lands 5 ⟨0, 7⟩)]

theorem exists_steps_retrying : ∃ s, Steps (start ⟨true, 10⟩) retrying s := by
  have begun := (Steps.refl (start ⟨true, 10⟩ : Shared Nat Nat Unit)).tail (.begin _ (.fetch 5))
  have timed := begun.tail (.advance (j := 0) rfl (.tick rfl))
  have waits := timed.tail (.advance (j := 0) rfl (.acquire (Cache.takesSlot_acquire rfl)))
  have builds := waits.tail (.advance (j := 0) rfl (.miss rfl rfl))
  have fails := builds.tail (.advance (j := 0) rfl (.fail ()))
  have unlocks := fails.tail (.advance (j := 0) rfl .unlock)
  have ends := unlocks.tail (.advance (j := 0) rfl .drop)
  have begun := ends.tail (.begin _ (.fetch 5))
  have timed := begun.tail (.advance (j := 1) rfl (.tick rfl))
  have waits := timed.tail (.advance (j := 1) rfl (.acquire (Cache.takesSlot_acquire rfl)))
  have builds := waits.tail (.advance (j := 1) rfl (.miss rfl rfl))
  have lands := builds.tail (.advance (j := 1) rfl (.land (v := 7) rfl))
  exact ⟨_, lands⟩

/-- The build that fails counts where values are not kept, and only there. -/
theorem builds_eq_of_steps_failing :
    (∃ s, Steps (start ⟨true, 10⟩) retrying s ∧ s.cache.metrics.builds = 1) ∧
      Steps (start ⟨false, 10⟩) failing oneFailed ∧
        oneFailed.cache.metrics.builds = landed failing + failed failing + oneFailed.building := by
  obtain ⟨s, hsteps⟩ := exists_steps_retrying
  refine ⟨⟨s, hsteps, (builds_eq_of_steps hsteps).1 rfl⟩, steps_oneFailed, ?_⟩
  exact (builds_eq_of_steps steps_oneFailed).2.1 rfl

/-- So a cache that keeps no values has counted a build where none has given a value. -/
theorem builds_ne_landed_failing : Steps (start ⟨false, 10⟩) failing oneFailed ∧
    oneFailed.cache.metrics.builds = 1 ∧ landed failing = 0 :=
  ⟨steps_oneFailed, rfl, rfl⟩

end Shared

end CriteriaQuery

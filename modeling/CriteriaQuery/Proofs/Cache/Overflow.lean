import CriteriaQuery.Cache.Metrics
import CriteriaQuery.Proofs.Cache.Held

/-!
# Entries beyond the capacity

While its slots are in use a cache may come to have more entries than it is meant to have, and it
keeps them when their slots are no longer in use: only another key makes it evict. However calls
overlap, no entry goes whose slot a call holds, and the cache never has more entries than its
capacity or than one more than the slots that calls held at one moment so far, whichever is more.

The one more comes about when a call finds every slot held, another call lets go of one, and then
the first one adds its entry. In runs in which this does not happen the cache never has more entries
than its capacity or than there were slots that calls held at one moment.

## Implementation notes

The evictions that make room for a key stop for one of two reasons: there is room, or every entry
that is left was found in use. If nothing was evicted before, the slots of all entries were in use
when calls last could take hold of any, as they have only been let go of since. Nothing else adds an
entry.
-/

namespace CriteriaQuery

variable {κ σ ε : Type}

theorem Phase.lateAfter_begun_next (late : List Nat) (answer : Answer σ ε) (is : List Nat) :
    lateAfter late .begun (next answer is) = [] := by
  cases is <;> rfl

namespace Cache

variable {c c' : Cache κ σ} {key : κ} {i now : Nat} {held late : List Nat}

/-- Whether no entry is found idle by a call that has found some slots held before they were let go
of. -/
def Crowded (c : Cache κ σ) (held : List Nat) : Prop :=
  ∀ e ∈ c.entries, c.idlePast held e.2 = false

instance : Decidable (c.Crowded held) :=
  inferInstanceAs (Decidable (∀ e ∈ c.entries, c.idlePast held e.2 = false))

theorem crowded_iff :
    c.Crowded held ↔ ∀ e ∈ c.entries, (c.slot e.2.slot).holders = 0 → e.2.slot ∈ held := by
  refine forall₂_congr fun e _ => ?_
  rw [← Bool.not_eq_true, idlePast_iff, not_and, not_not]

theorem Crowded.mono (h : c.Crowded held) (hlate : held ⊆ late) : c.Crowded late :=
  crowded_iff.mpr fun e he hzero => hlate (crowded_iff.mp h e he hzero)

section MakeRoom

variable [DecidableEq κ]

/-! ### What making room leaves behind -/

/-- Where nothing is evicted no entry was found idle. -/
theorem crowded_of_evictOf (hevict : c.evictOf? (c.idlePast held) = none) : c.Crowded held := by
  intro e he
  by_contra hfound
  have hidle : e ∈ c.entries.filter fun e => c.idlePast held e.2 :=
    List.mem_filter.mpr ⟨he, by simpa using hfound⟩
  obtain ⟨victim, hvictim, -⟩ := exists_oldest hidle
  rw [evictOf?, victimOf?, hvictim] at hevict
  simp at hevict

theorem length_le_of_makesRoom (hroom : MakesRoom held c c') :
    c'.entries.length ≤ c.entries.length := by
  induction hroom with
  | room => exact Nat.le_refl _
  | crowded => exact Nat.le_refl _
  | evict _ _ hevict _ ih => exact Nat.le_trans ih (Nat.le_of_lt (length_evictOf hevict))

/-- Making room ends with room for another entry, or with fewer entries, or with no entry evicted as
none was found idle. -/
theorem makesRoom_cases (hroom : MakesRoom held c c') :
    c'.entries.length < c.policy.capacity ∨ c'.entries.length < c.entries.length ∨
      c' = c ∧ c.Crowded held := by
  cases hroom with
  | room hroom => exact Or.inl hroom
  | crowded hheld _ hnone => exact Or.inr (Or.inr ⟨rfl, (crowded_of_evictOf hnone).mono hheld⟩)
  | evict _ _ hevict hrest =>
      right; left
      exact Nat.lt_of_le_of_lt (length_le_of_makesRoom hrest) (length_evictOf hevict)

end MakeRoom

/-! ### What adds an entry -/

/-- A new entry is in use as all others are. -/
theorem Crowded.addEntry (h : c.Crowded held) (hs : c.Sound) (key : κ) (now : Nat) :
    (c.addEntry key now).Crowded held := by
  refine crowded_iff.mpr fun e he => ?_
  rw [slot_addEntry]
  rcases List.mem_append.mp he with he | hnew
  · have hplace : (e.1, e.2.slot) ∈ c.places := List.mem_map_of_mem he
    rw [if_neg (Nat.ne_of_lt (hs.inRange _ hplace))]
    exact crowded_iff.mp h e he
  · rw [List.mem_singleton.mp hnew, if_pos rfl]
    exact fun hzero => absurd hzero Nat.one_ne_zero

/-- Whether an entry is added beyond the capacity. No entry was found idle then, and if none was,
none is. -/
structure Overflows (late : List Nat) (c c' : Cache κ σ) : Prop where
  length : c'.entries.length = c.entries.length + 1
  crowded : c.Crowded late
  busy : c.Crowded [] → c'.Crowded []

variable [DecidableEq κ]

/-- Whoever asks for a key adds an entry only where there is room or after another one was evicted,
unless no entry was found idle. -/
theorem takesSlot_cases (hs : c.Sound) (htakes : TakesSlot late key now c i c') :
    c'.entries.length ≤ c.entries.length ∨ c'.entries.length ≤ c.policy.capacity ∨
      Overflows late c c' := by
  cases htakes with
  | present => exact Or.inl (Nat.le_of_eq (List.length_map ..))
  | @added roomy hnone hroom =>
      have hadded : (roomy.addEntry key now).entries.length = roomy.entries.length + 1 :=
        List.length_append
      rcases makesRoom_cases hroom with hlt | hshorter | ⟨rfl, hcrowded⟩
      · exact Or.inr (Or.inl (hadded ▸ hlt))
      · exact Or.inl (hadded ▸ hshorter)
      · exact Or.inr (Or.inr ⟨hadded, hcrowded, fun h => h.addEntry hs key now⟩)

variable {request : Request κ} {phase phase' : Phase σ ε} {hs : List (Happening κ σ ε)}

/-- So it is for every section of a call. -/
theorem Section.length_cases (h : Fits c request phase)
    (hsection : Section late request phase c hs phase' c') :
    c'.entries.length ≤ c.entries.length ∨ c'.entries.length ≤ c.policy.capacity ∨
      Overflows late c c' := by
  cases hsection with
  | acquire htakes => exact takesSlot_cases h.sound htakes
  | find _ hfind =>
      obtain ⟨e, -, heq⟩ := Option.map_eq_some_iff.mp hfind
      obtain ⟨-, rfl⟩ := Prod.mk.inj heq
      exact Or.inl (Nat.le_refl _)
  | sweep _ hsweep =>
      obtain rfl := congrArg Prod.snd hsweep
      left
      rw [entries_sweepOf]
      exact List.length_filter_le ..
  | hit hlock =>
      obtain ⟨-, rfl⟩ := lock?_eq_some_iff.mp hlock
      exact Or.inl (Nat.le_of_eq (congrArg List.length (entries_count _)))
  | miss hlock =>
      obtain ⟨-, rfl⟩ := lock?_eq_some_iff.mp hlock
      exact Or.inl (Nat.le_of_eq (congrArg List.length (entries_count _)))
  | look hlock =>
      obtain ⟨-, rfl⟩ := lock?_eq_some_iff.mp hlock
      exact Or.inl (Nat.le_refl _)
  | count => exact Or.inl (Nat.le_of_eq (congrArg List.length (entries_count _)))
  | empty hlock =>
      obtain ⟨-, rfl⟩ := lock?_eq_some_iff.mp hlock
      exact Or.inl (Nat.le_refl _)
  | land hmake =>
      obtain ⟨-, rfl⟩ := Prod.mk.inj hmake
      exact Or.inl (Nat.le_refl _)
  | landUnkept hmake =>
      obtain ⟨-, rfl⟩ := Prod.mk.inj hmake
      exact Or.inl (Nat.le_refl _)
  | _ => exact Or.inl (Nat.le_refl _)


/-- A call that does not have the entries takes hold of no slot, and what is late then is what it
has let go of, or was late before. -/
theorem Section.late_cases (hsection : Section late request phase c hs phase' c') :
    Phase.lateAfter late phase phase' = [] ∨
      ∀ i, i ∈ phase'.holds ∨ i ∈ Phase.lateAfter late phase phase' →
        i ∈ phase.holds ∨ i ∈ late := by
  cases hsection with
  | acquire => exact Or.inl rfl
  | absent => exact Or.inl rfl
  | find => exact Or.inl rfl
  | sweep => exact Or.inl (Phase.lateAfter_begun_next ..)
  | @drop _ i rest answer =>
      right
      intro j hj
      rw [Phase.holds_next, Phase.lateAfter, List.mem_cons] at hj
      rw [Phase.holds, List.mem_cons]
      tauto
  | _ => exact Or.inr fun _ => id

end Cache

namespace Shared

/-! ### Slots in use -/

/-- The slots that calls hold, each of them once. -/
def heldSlots (s : Shared κ σ ε) : List Nat := (s.calls.flatMap fun call => call.phase.holds).dedup

/-- Whether an entry is added beyond the capacity although the slot of another one is not held. -/
def Overfills (t u : Shared κ σ ε) : Prop :=
  max t.cache.policy.capacity t.cache.entries.length < u.cache.entries.length ∧ ¬ t.cache.Crowded []

instance (t u : Shared κ σ ε) : Decidable (Overfills t u) :=
  inferInstanceAs (Decidable (_ ∧ _))

variable {s t u : Shared κ σ ε} {es : List (Event κ σ ε)} {states : List (Shared κ σ ε)}
  {late : List Nat}

theorem mem_heldSlots_iff {i : Nat} : i ∈ s.heldSlots ↔ ∃ call ∈ s.calls, i ∈ call.phase.holds := by
  rw [heldSlots, List.mem_dedup, List.mem_flatMap]

/-- A slot is held as its count of holders says. -/
theorem Sound.mem_heldSlots_iff (hs : s.Sound) {i : Nat} :
    i ∈ s.heldSlots ↔ (s.cache.slot i).holders ≠ 0 := by
  rw [Shared.mem_heldSlots_iff, hs.holders, tally, Ne, List.sum_eq_zero_iff]
  simp [List.count_eq_zero]

/-- Where no entry is found idle there are no more entries than slots that were held in a state, if
those were held in it that are held or late. -/
theorem Sound.length_le_heldSlots (hs : s.Sound) (hcrowded : s.cache.Crowded late)
    (hheld : ∀ i, i ∈ s.heldSlots ∨ i ∈ late → i ∈ u.heldSlots) :
    s.cache.entries.length ≤ u.heldSlots.length := by
  have hsub : s.cache.places.map Prod.snd ⊆ u.heldSlots := by
    intro i hi
    obtain ⟨place, hplace, rfl⟩ := List.mem_map.mp hi
    obtain ⟨e, he, rfl⟩ := List.mem_map.mp hplace
    apply hheld
    by_cases hzero : (s.cache.slot e.2.slot).holders = 0
    · exact Or.inr (Cache.crowded_iff.mp hcrowded e he hzero)
    · exact Or.inl (hs.mem_heldSlots_iff.mpr hzero)
  have hle := (List.subperm_of_subset hs.cache.slots hsub).length_le
  simpa [Cache.places] using hle

variable [DecidableEq κ]

/-- An entry whose slot is held stays as its key's entry with that slot. -/
theorem Sound.exists_entry_of_step (hs : s.Sound) (hstep : Step s es t) {key : κ} {e : CacheEntry}
    (hentry : s.cache.entry? key = some e) (hheld : e.slot ∈ s.heldSlots) :
    ∃ e', t.cache.entry? key = some e' ∧ e'.slot = e.slot := by
  have hplace := Cache.mem_places_of_entry hentry
  have hholders := hs.mem_heldSlots_iff.mp hheld
  cases hstep with
  | begin => exact ⟨e, hentry, rfl⟩
  | advance hcall hsection =>
      have hmoves := hsection.moves (hs.fits hcall)
      exact hmoves.sound.exists_entry (hmoves.busy _ hplace hholders)

/-- A step adds an entry only where there is room or after another one was evicted, unless no entry
was found idle. -/
theorem Sound.length_of_step (hs : s.Sound) (hstep : Step s es t) :
    t.cache.entries.length ≤ s.cache.entries.length ∨
      t.cache.entries.length ≤ s.cache.policy.capacity ∨
        Cache.Overflows s.late s.cache t.cache := by
  cases hstep with
  | begin => exact Or.inl (Nat.le_refl _)
  | advance hcall hsection => exact hsection.length_cases (hs.fits hcall)

/-- Nothing is late when a call gives the entries back, and after any other step what is held or
late was so before. -/
theorem Step.late_cases (hstep : Step s es t) :
    t.late = [] ∨ ∀ i, i ∈ t.heldSlots ∨ i ∈ t.late → i ∈ s.heldSlots ∨ i ∈ s.late := by
  cases hstep with
  | begin request =>
      right
      simp [mem_heldSlots_iff, Shared.begin, Phase.holds]
  | @advance j call hs phase c hcall hsection =>
      refine hsection.late_cases.imp_right fun hlate i hi => ?_
      have hmem := List.mem_of_getElem? hcall
      have hcalls : i ∈ phase.holds ∨ i ∈ Phase.lateAfter s.late call.phase phase →
          i ∈ s.heldSlots ∨ i ∈ s.late := fun hi =>
        (hlate i hi).imp_left fun hholds => mem_heldSlots_iff.mpr ⟨call, hmem, hholds⟩
      rcases hi with hheld | hi
      · obtain ⟨other, hother, hholds⟩ := mem_heldSlots_iff.mp hheld
        rcases List.mem_or_eq_of_mem_set hother with hother | rfl
        · exact Or.inl (mem_heldSlots_iff.mpr ⟨other, hother, hholds⟩)
        · exact hcalls (Or.inl hholds)
      · exact hcalls (Or.inr hi)

/-! ### Runs and their peaks -/

/-- Steps one after the other, with all states that they pass. -/
inductive Passes : Shared κ σ ε → List (Shared κ σ ε) → Shared κ σ ε → Prop
  | refl (s : Shared κ σ ε) : Passes s [s] s
  | tail {s t u : Shared κ σ ε} {states es} (hpasses : Passes s states t) (hstep : Step t es u) :
    Passes s (states ++ [u]) u

/-- Whatever state steps lead to, they pass some states on their way. -/
theorem Steps.exists_passes {h : List (Event κ σ ε)} (hsteps : Steps s h t) :
    ∃ states, Passes s states t := by
  induction hsteps with
  | refl => exact ⟨_, .refl s⟩
  | tail _ hstep ih =>
      obtain ⟨states, hpasses⟩ := ih
      exact ⟨_, hpasses.tail hstep⟩

/-- The greatest number of slots that were held in one state. -/
def peak (states : List (Shared κ σ ε)) : Nat :=
  (states.map fun s => s.heldSlots.length).foldl max 0

omit [DecidableEq κ] in
theorem peak_concat (states : List (Shared κ σ ε)) (s : Shared κ σ ε) :
    peak (states ++ [s]) = max (peak states) s.heldSlots.length := by
  simp [peak]

omit [DecidableEq κ] in
theorem length_le_peak (hs : s ∈ states) : s.heldSlots.length ≤ peak states := by
  obtain ⟨before, after, rfl⟩ := List.append_of_mem hs
  induction after using List.reverseRecOn with
  | nil =>
      rw [peak_concat]
      exact Nat.le_max_right ..
  | append_singleton after t ih =>
      rw [← List.cons_append, ← List.append_assoc, peak_concat]
      exact Nat.le_trans (ih (by simp)) (Nat.le_max_left ..)

theorem Passes.sound {policy : CachePolicy} (hpasses : Passes (start policy) states s) :
    s.Sound ∧ s.cache.policy = policy := by
  induction hpasses with
  | refl => exact ⟨sound_start policy, rfl⟩
  | tail _ hstep ih => exact ⟨ih.1.of_step hstep, (policy_of_step ih.1 hstep).trans ih.2⟩

theorem Passes.getLast?_eq (hpasses : Passes s states t) : states.getLast? = some t := by
  cases hpasses with
  | refl => rfl
  | tail => exact List.getLast?_concat

/-- All slots that are held or late were held in one state of the run: since then slots have only
been let go of. -/
theorem Passes.exists_held {policy : CachePolicy} (hpasses : Passes (start policy) states s) :
    ∃ u ∈ states, ∀ i, i ∈ s.heldSlots ∨ i ∈ s.late → i ∈ u.heldSlots := by
  induction hpasses with
  | refl => exact ⟨_, List.mem_singleton_self _, fun i hi => hi.resolve_right nofun⟩
  | @tail t u states es _ hstep ih =>
      rcases hstep.late_cases with hnil | hheld
      · refine ⟨u, by simp, fun i hi => hi.resolve_right ?_⟩
        rw [hnil]
        nofun
      · obtain ⟨v, hv, hheld'⟩ := ih
        exact ⟨v, List.mem_append_left _ hv, fun i hi => hheld' i (hheld i hi)⟩

/-- Where an entry is added beyond the capacity there were no more entries before than the peak, and
there are no more than the peak if no entry was idle. -/
theorem Passes.length_of_overflows {policy : CachePolicy} (hpasses : Passes (start policy) states s)
    (hstep : Step s es t) (hover : Cache.Overflows s.late s.cache t.cache) :
    t.cache.entries.length ≤ peak states + 1 ∧
      (s.cache.Crowded [] → t.cache.entries.length ≤ t.heldSlots.length) := by
  obtain ⟨hs, -⟩ := hpasses.sound
  constructor
  · obtain ⟨u, hu, hheld⟩ := hpasses.exists_held
    have hle := hs.length_le_heldSlots hover.crowded hheld
    have hpeak := length_le_peak hu
    rw [hover.length]
    omega
  · intro hcrowded
    exact (hs.of_step hstep).length_le_heldSlots (hover.busy hcrowded) fun i hi =>
      hi.resolve_right nofun

/-- The peak only grows, so entries that were once within it stay so when their slots are no longer
held. -/
theorem Passes.length_le {policy : CachePolicy} (hpasses : Passes (start policy) states s) :
    s.cache.entries.length ≤ max policy.capacity (peak states + 1) := by
  induction hpasses with
  | refl => exact Nat.zero_le _
  | @tail t u states es hpasses hstep ih =>
      obtain ⟨hs, hpolicy⟩ := hpasses.sound
      rw [peak_concat]
      rcases hs.length_of_step hstep with hle | hroom | hover
      · omega
      · rw [hpolicy] at hroom
        omega
      · have hle := (hpasses.length_of_overflows hstep hover).1
        omega

/-- The one more comes about only beside an entry that nobody holds. -/
theorem Passes.length_le_of_isChain {policy : CachePolicy}
    (hpasses : Passes (start policy) states s)
    (hchain : states.IsChain fun t u => ¬ Overfills t u) :
    s.cache.entries.length ≤ max policy.capacity (peak states) := by
  induction hpasses with
  | refl => exact Nat.zero_le _
  | @tail t u states es hpasses hstep ih =>
      obtain ⟨hs, hpolicy⟩ := hpasses.sound
      obtain ⟨hbefore, -, hlast⟩ := List.isChain_append.mp hchain
      have hle := ih hbefore
      have hnot : ¬ Overfills t u := hlast t hpasses.getLast?_eq u rfl
      rw [peak_concat]
      rcases hs.length_of_step hstep with hle | hroom | hover
      · omega
      · rw [hpolicy] at hroom
        omega
      · by_cases hcrowded : t.cache.Crowded []
        · have hheld := (hpasses.length_of_overflows hstep hover).2 hcrowded
          omega
        · have hsmall : ¬ max t.cache.policy.capacity t.cache.entries.length <
              u.cache.entries.length := fun hlt => hnot ⟨hlt, hcrowded⟩
          rw [hpolicy] at hsmall
          omega

/-- A cache has no more entries than its capacity or than one more than the slots that were held at
one moment so far, and no more than those if no entry is added beyond the capacity while the slot of
another one is not held. It loses no entry whose slot a call holds. -/
theorem size_le_peak {policy : CachePolicy} (hpasses : Passes (start policy) states s) :
    s.cache.metrics.size ≤ max (max 1 policy.maxEntries) (peak states + 1) ∧
      ((states.IsChain fun t u => ¬ Overfills t u) →
        s.cache.metrics.size ≤ max (max 1 policy.maxEntries) (peak states)) ∧
      ∀ {es t key e}, Step s es t → s.cache.entry? key = some e → t.cache.entry? key = none →
        ∀ call ∈ s.calls, e.slot ∉ call.phase.holds := by
  rw [Nat.max_comm 1]
  refine ⟨hpasses.length_le, hpasses.length_le_of_isChain, ?_⟩
  intro es t key e hstep hentry hgone call hcall hholds
  have hheld : e.slot ∈ s.heldSlots := mem_heldSlots_iff.mpr ⟨call, hcall, hholds⟩
  obtain ⟨e', hentry', -⟩ := hpasses.sound.1.exists_entry_of_step hstep hentry hheld
  nomatch hgone.symm.trans hentry'

/-- Two calls make values at the same time in a cache for one entry, and both fail: the cache keeps
two entries that nobody holds. -/
theorem size_le_peak_overlapping : ∃ states, ∃ s : Shared Nat Nat Unit,
    Passes (start ⟨true, 1⟩) states s ∧ s.cache.metrics.size = 2 ∧ s.heldSlots = [] ∧
      peak states = 2 ∧ s.cache.metrics.size ≤ max (max 1 1) (peak states) := by
  have begun := (Passes.refl (start ⟨true, 1⟩ : Shared Nat Nat Unit)).tail (.begin _ (.fetch 5))
  have timed := begun.tail (.advance (j := 0) rfl (.tick rfl))
  have waits := timed.tail (.advance (j := 0) rfl (.acquire (Cache.takesSlot_acquire rfl)))
  have begun := waits.tail (.begin _ (.fetch 6))
  have timed := begun.tail (.advance (j := 1) rfl (.tick rfl))
  have waits := timed.tail (.advance (j := 1) rfl (.acquire (Cache.takesSlot_acquire rfl)))
  have builds := waits.tail (.advance (j := 0) rfl (.miss rfl rfl))
  have builds := builds.tail (.advance (j := 1) rfl (.miss rfl rfl))
  have fails := builds.tail (.advance (j := 0) rfl (.fail ()))
  have unlocks := fails.tail (.advance (j := 0) rfl .unlock)
  have ends := unlocks.tail (.advance (j := 0) rfl .drop)
  have fails := ends.tail (.advance (j := 1) rfl (.fail ()))
  have unlocks := fails.tail (.advance (j := 1) rfl .unlock)
  have ends := unlocks.tail (.advance (j := 1) rfl .drop)
  exact ⟨_, _, ends, rfl, rfl, rfl, (size_le_peak ends).2.1 (by decide)⟩

/-- A call finds the slot of another one held, which lets go of it, and then adds its entry: a cache
for one entry keeps two, and no two slots were held at one moment. -/
theorem size_gt_peak_overfilled : ∃ states, ∃ s : Shared Nat Nat Unit,
    Passes (start ⟨true, 1⟩) states s ∧ s.cache.metrics.size = 2 ∧ peak states = 1 ∧
      ¬ s.cache.metrics.size ≤ max (max 1 1) (peak states) := by
  have begun := (Passes.refl (start ⟨true, 1⟩ : Shared Nat Nat Unit)).tail (.begin _ (.fetch 5))
  have timed := begun.tail (.advance (j := 0) rfl (.tick rfl))
  have waits := timed.tail (.advance (j := 0) rfl (.acquire (Cache.takesSlot_acquire rfl)))
  have builds := waits.tail (.advance (j := 0) rfl (.miss rfl rfl))
  have begun := builds.tail (.begin _ (.fetch 6))
  have timed := begun.tail (.advance (j := 1) rfl (.tick rfl))
  have lands := timed.tail (.advance (j := 0) rfl (.land (v := 7) rfl))
  have unlocks := lands.tail (.advance (j := 0) rfl .unlock)
  have ends := unlocks.tail (.advance (j := 0) rfl .drop)
  -- the other call has looked at the slot before it was let go of
  let c : Cache Nat Nat :=
    ⟨⟨true, 1⟩, [(5, ⟨0, 0⟩)], [⟨some ⟨0, 7⟩, 1, false⟩], 2, 1, 0, 1, 1, 0⟩
  have hlooks : Cache.Looks (fun _ => false) c c.entries [0] := .look rfl (.letGo (.done _))
  have hrun : Cache.Interrupted c ([0] ++ []) (c.drop 0) :=
    .crowded (Nat.le_refl 1) (.refl _) hlooks rfl
  have hnone : c.entry? 6 = none := rfl
  have hsection := Cache.section_of_interrupted (ε := Unit) unlocks.sound.1.cache hnone hrun
    (List.Subset.refl [0]) 1
  have overtakes := ends.tail (.advance (j := 1) rfl hsection)
  exact ⟨_, _, overtakes, rfl, rfl, by decide⟩

end Shared

end CriteriaQuery

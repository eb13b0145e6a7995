import CriteriaQuery.Proofs.Cache.Places

/-!
# Entries whose slots are let go of

A call that goes through the entries looks at one slot after the other, and slots are let go of
meanwhile. It finds an entry idle if nobody holds the slot when its turn comes. What it makes of
that is the same as if all those slots had been let go of before, and the call had still found some
of them held.

## Implementation notes

`Looks` and `Interrupted` follow a call step by step. `MakesRoom` says the same of the cache in
which the slots have been let go of already, so that it can be one section of a call.
-/

namespace CriteriaQuery.Cache

variable {κ σ : Type}

/-- Whether a call finds an entry idle that has found some slots held before they were let go of. -/
def idlePast (c : Cache κ σ) (held : List Nat) (e : CacheEntry) : Bool :=
  c.isIdle e && !held.contains e.slot

section Definitions

variable [DecidableEq κ]

/-- Evictions that make room for another entry. Each time the call goes through the entries anew,
and may find fewer slots held that were let go of. -/
inductive MakesRoom : List Nat → Cache κ σ → Cache κ σ → Prop
  | room {held c} (hroom : c.entries.length < c.policy.capacity) : MakesRoom held c c
  | crowded {held held' c} (hheld : held' ⊆ held) (hfull : c.policy.capacity ≤ c.entries.length)
    (h : c.evictOf? (c.idlePast held') = none) : MakesRoom held c c
  | evict {held held' c c' c''} (hheld : held' ⊆ held)
    (hfull : c.policy.capacity ≤ c.entries.length)
    (h : c.evictOf? (c.idlePast held') = some c') (hrest : MakesRoom held' c' c'') :
    MakesRoom held c c''

/-- What a call takes hold of for a key: the slot of its entry, or that of an entry that it adds
after it has made room. -/
inductive TakesSlot (late : List Nat) (key : κ) (now : Nat) (c : Cache κ σ) :
    Nat → Cache κ σ → Prop
  | present {e : CacheEntry} (h : c.entry? key = some e) :
    TakesSlot late key now c e.slot ((c.touch key now).hold e.slot)
  | added {c' : Cache κ σ} (h : c.entry? key = none) (hroom : MakesRoom late c c') :
    TakesSlot late key now c c'.slots.length (c'.addEntry key now)

/-- How a call goes through entries while slots are let go of, and whether it finds an entry idle
when its turn comes. -/
inductive Looks (idle : CacheEntry → Bool) : Cache κ σ → List (κ × CacheEntry) → List Nat → Prop
  | done (c : Cache κ σ) : Looks idle c [] []
  | look {c : Cache κ σ} {e es ds} (h : idle e.2 = c.isIdle e.2) (hrest : Looks idle c es ds) :
    Looks idle c (e :: es) ds
  | letGo {c : Cache κ σ} {es i ds} (hrest : Looks idle (c.drop i) es ds) :
    Looks idle c es (i :: ds)

/-- How a call makes room while slots are let go of: it goes through the entries in some order and
evicts one that it has found idle, as long as there is no room and it finds one. -/
inductive Interrupted : Cache κ σ → List Nat → Cache κ σ → Prop
  | room {c : Cache κ σ} {ds} (hroom : c.entries.length < c.policy.capacity) :
    Interrupted c ds (ds.foldl drop c)
  | crowded {c : Cache κ σ} {order idle ds ds'} (hfull : c.policy.capacity ≤ c.entries.length)
    (horder : order.Perm c.entries) (hlooks : Looks idle c order ds)
    (h : (ds.foldl drop c).evictOf? idle = none) :
    Interrupted c (ds ++ ds') ((ds ++ ds').foldl drop c)
  | evict {c c' c'' : Cache κ σ} {order idle ds ds'} (hfull : c.policy.capacity ≤ c.entries.length)
    (horder : order.Perm c.entries) (hlooks : Looks idle c order ds)
    (h : (ds.foldl drop c).evictOf? idle = some c') (hrest : Interrupted c' ds' c'') :
    Interrupted c (ds ++ ds') c''

end Definitions

variable {c c' : Cache κ σ} {held ds : List Nat} {e : CacheEntry} {idle : CacheEntry → Bool}
  {order : List (κ × CacheEntry)}

theorem isIdle_iff : c.isIdle e = true ↔ (c.slot e.slot).holders = 0 := by
  simp [isIdle]

theorem idlePast_iff :
    c.idlePast held e = true ↔ (c.slot e.slot).holders = 0 ∧ e.slot ∉ held := by
  simp [idlePast, isIdle]

theorem isIdle_of_idlePast (h : c.idlePast held e = true) : c.isIdle e = true :=
  isIdle_iff.mpr (idlePast_iff.mp h).1

@[simp] theorem idlePast_nil (c : Cache κ σ) : c.idlePast [] = c.isIdle := by
  funext e
  simp [idlePast]

/-! ### Slots that are let go of -/

theorem holders_foldl_drop {i : Nat} :
    ((ds.foldl drop c).slot i).holders = (c.slot i).holders - ds.count i := by
  induction ds generalizing c with
  | nil => rfl
  | cons d ds ih => rw [List.foldl_cons, ih, holders_drop, count_cons_eq d ds, Nat.sub_sub]

@[simp] theorem entries_foldl_drop : (ds.foldl drop c).entries = c.entries :=
  apply_foldl_eq drop Cache.entries (fun _ _ => rfl) ds c

@[simp] theorem policy_foldl_drop : (ds.foldl drop c).policy = c.policy :=
  apply_foldl_eq drop Cache.policy (fun _ _ => rfl) ds c

theorem Sound.foldl_drop (h : c.Sound) (ds : List Nat) : (ds.foldl drop c).Sound := by
  have hplaces := apply_foldl_eq drop places (fun _ _ => rfl) ds c
  have hlength := apply_foldl_eq drop (fun c => c.slots.length)
    (fun _ _ => length_slots_modifySlot ..) ds c
  exact h.of_sublist (hplaces ▸ .refl _) (Nat.le_of_eq hlength.symm)

/-- What has been found idle stays idle, and what has been found held was held at first. -/
theorem Looks.found (hlooks : Looks idle c order ds) : ∀ e ∈ order,
    (idle e.2 = true → ((ds.foldl drop c).slot e.2.slot).holders = 0) ∧
      (idle e.2 = false → (c.slot e.2.slot).holders ≠ 0) := by
  induction hlooks with
  | done => nofun
  | @look c e es ds h _ ih =>
      intro f hf
      rcases List.mem_cons.mp hf with rfl | hf
      · rw [h]
        refine ⟨fun hidle => ?_, fun hheld hzero => ?_⟩
        · rw [holders_foldl_drop, isIdle_iff.mp hidle, Nat.zero_sub]
        · rw [isIdle_iff.mpr hzero] at hheld
          nomatch hheld
      · exact ih f hf
  | @letGo c es i ds _ ih =>
      intro f hf
      obtain ⟨hidle, hheld⟩ := ih f hf
      refine ⟨hidle, fun hfound hzero => hheld hfound ?_⟩
      rw [holders_drop, hzero, Nat.zero_sub]

theorem Sound.eq_of_slot {e f : κ × CacheEntry} (h : c.Sound) (he : e ∈ c.entries)
    (hf : f ∈ c.entries) (hslot : e.2.slot = f.2.slot) : e = f := by
  have hslots : c.places.map Prod.snd = c.entries.map fun e => e.2.slot := by simp [places]
  exact List.inj_on_of_nodup_map (hslots ▸ h.slots) he hf hslot

/-- What a call finds is what it finds that has found some slots held before all were let go of. -/
theorem Looks.exists_held (h : c.Sound) (horder : order.Perm c.entries)
    (hlooks : Looks idle c order ds) (ds' : List Nat) :
    ∃ held, (∀ i, i ∈ held ↔ i ∈ ds ++ ds' ∧ (c.slot i).holders ≠ 0 ∧
        ∀ e ∈ c.entries, idle e.2 = true → e.2.slot ≠ i) ∧
      ∀ e ∈ c.entries, idle e.2 = ((ds ++ ds').foldl drop c).idlePast held e.2 := by
  classical
  let p : Nat → Prop := fun i =>
    (c.slot i).holders ≠ 0 ∧ ∀ e ∈ c.entries, idle e.2 = true → e.2.slot ≠ i
  have hmem : ∀ i, i ∈ (ds ++ ds').filter p ↔ i ∈ ds ++ ds' ∧ p i := fun i => by
    rw [List.mem_filter, decide_eq_true_iff]
  refine ⟨_, hmem, fun e he => ?_⟩
  obtain ⟨hidle, hheld⟩ := hlooks.found e (horder.mem_iff.mpr he)
  rw [holders_foldl_drop] at hidle
  rw [Bool.eq_iff_iff, idlePast_iff, holders_foldl_drop, hmem]
  constructor
  · intro hfound
    have hzero := hidle hfound
    refine ⟨?_, fun hp => hp.2.2 e he hfound rfl⟩
    rw [List.count_append]
    omega
  · rintro ⟨hzero, hnot⟩
    by_contra hfound
    have hne := hheld (by simpa using hfound)
    have hdropped : e.2.slot ∈ ds ++ ds' := List.count_pos_iff.mp (by omega)
    refine hnot ⟨hdropped, hne, fun f hf hfound' hslot => hfound ?_⟩
    exact h.eq_of_slot hf he hslot ▸ hfound'

/-! ### Sweeps -/

theorem sweeps_of_idlePast {matching : κ → Bool} {busy : List Nat} (h : c.Sound)
    (hsweep : c.sweepOf (c.idlePast held) matching = (busy, c')) : Sweeps c matching busy c' :=
  sweeps_of_sweepOf h (fun _ _ => isIdle_of_idlePast) hsweep

/-- A sweep by what a call finds. -/
theorem Looks.exists_sweepOf_eq (h : c.Sound) (horder : order.Perm c.entries)
    (hlooks : Looks idle c order ds) (matching : κ → Bool) :
    ∃ held ⊆ ds, (ds.foldl drop c).sweepOf idle matching =
      (ds.foldl drop c).sweepOf ((ds.foldl drop c).idlePast held) matching := by
  obtain ⟨held, hmem, hfound⟩ := hlooks.exists_held h horder []
  rw [List.append_nil] at hfound
  refine ⟨held, fun i hi => by simpa using ((hmem i).mp hi).1, ?_⟩
  have hbusy : ∀ e ∈ c.entries, (matching e.1 && !idle e.2) =
      (matching e.1 && !(ds.foldl drop c).idlePast held e.2) := fun e he => by rw [hfound e he]
  have hkept : ∀ e ∈ c.entries, (!matching e.1 || !idle e.2) =
      (!matching e.1 || !(ds.foldl drop c).idlePast held e.2) := fun e he => by rw [hfound e he]
  rw [sweepOf, sweepOf, entries_foldl_drop, List.filter_congr hbusy, List.filter_congr hkept]

section MakingRoom

variable [DecidableEq κ]

/-! ### What making room leaves behind -/

theorem trims_of_makesRoom (h : c.Sound) (hroom : MakesRoom held c c') : Trims c c' := by
  induction hroom with
  | room => exact .refl _
  | crowded => exact .refl _
  | evict _ _ hevict _ ih =>
      have htrims := trims_evictOf h (fun _ _ => isIdle_of_idlePast) hevict
      exact htrims.trans (ih (htrims.sound h))

theorem acquires_of_takesSlot {key : κ} {now i : Nat} (h : c.Sound)
    (htakes : TakesSlot held key now c i c') : Acquires c key i c' := by
  cases htakes with
  | present hentry =>
      exact acquires_hold h (trims_touch c key now) (places_touch c key now)
        (mem_places_of_entry hentry)
  | added hentry hroom =>
      exact acquires_addEntry now h (trims_of_makesRoom h hroom) (entry?_eq_none_iff.mp hentry)

theorem length_evictOf (hevict : c.evictOf? idle = some c') :
    c'.entries.length < c.entries.length := by
  obtain ⟨victim, hvictim, rfl⟩ := Option.map_eq_some_iff.mp hevict
  obtain ⟨hmem, -⟩ := List.mem_filter.mp (mem_of_oldest? hvictim)
  apply List.length_filter_lt_length_iff_exists.mpr
  exact ⟨victim, hmem, by simp⟩

/-! ### Calls that nobody interrupts -/

theorem makesRoom_makeRoom {fuel : Nat} (hfuel : c.entries.length ≤ fuel) :
    MakesRoom held c (makeRoom fuel c) := by
  induction fuel generalizing c held with
  | zero => exact .room (Nat.lt_of_le_of_lt hfuel (capacity_pos c.policy))
  | succ fuel ih =>
      unfold makeRoom
      split
      · next hfull =>
          cases hevict : c.evict? with
          | none => exact .crowded (List.nil_subset held) hfull (by rwa [idlePast_nil])
          | some c' =>
              have hshorter : c'.entries.length < c.entries.length := length_evictOf hevict
              refine .evict (List.nil_subset held) hfull (by rwa [idlePast_nil]) (ih ?_)
              exact Nat.le_of_lt_succ (Nat.lt_of_lt_of_le hshorter hfuel)
      · next hroom => exact .room (Nat.not_le.mp hroom)

theorem makeRoom_of_makesRoom {fuel : Nat} (hfuel : c.entries.length ≤ fuel)
    (hroom : MakesRoom [] c c') : makeRoom fuel c = c' := by
  generalize hnil : ([] : List Nat) = held at hroom
  induction hroom generalizing fuel with
  | room hroom =>
      cases fuel with
      | zero => rfl
      | succ fuel => rw [makeRoom, if_neg (Nat.not_le.mpr hroom)]
  | crowded hheld hfull h =>
      subst hnil
      obtain rfl := List.subset_nil.mp hheld
      rw [idlePast_nil] at h
      cases fuel with
      | zero => rfl
      | succ fuel => rw [makeRoom, if_pos hfull, evict?, h]
  | evict hheld hfull h _ ih =>
      subst hnil
      obtain rfl := List.subset_nil.mp hheld
      rw [idlePast_nil] at h
      have hshorter := length_evictOf h
      cases fuel with
      | zero => omega
      | succ fuel =>
          rw [makeRoom, if_pos hfull, evict?, h]
          exact ih (by omega) rfl

/-- A call may take hold of the slot that `acquire` gives. -/
theorem takesSlot_acquire {key : κ} {now i : Nat} (hacquire : c.acquire key now = (i, c')) :
    TakesSlot held key now c i c' := by
  unfold acquire at hacquire
  split at hacquire
  · next hentry =>
      obtain ⟨rfl, rfl⟩ := Prod.mk.inj hacquire
      exact .present hentry
  · next hentry =>
      obtain ⟨rfl, rfl⟩ := Prod.mk.inj hacquire
      exact .added hentry (makesRoom_makeRoom (Nat.le_refl _))

/-- Where no slot is let go of meanwhile, it takes hold of no other. -/
theorem takesSlot_nil_iff {key : κ} {now i : Nat} :
    TakesSlot [] key now c i c' ↔ c.acquire key now = (i, c') := by
  refine ⟨fun htakes => ?_, takesSlot_acquire⟩
  unfold acquire
  cases htakes with
  | present hentry => rw [hentry]
  | added hentry hroom =>
      rw [hentry]
      dsimp only
      rw [makeRoom_of_makesRoom (Nat.le_refl _) hroom]

theorem trims_makeRoom (h : c.Sound) : Trims c (c.makeRoom c.entries.length) := by
  have hroom : MakesRoom [] c (c.makeRoom c.entries.length) := makesRoom_makeRoom (Nat.le_refl _)
  exact trims_of_makesRoom h hroom

theorem acquires_of_acquire {key : κ} {now i : Nat} (h : c.Sound)
    (hacquire : c.acquire key now = (i, c')) : Acquires c key i c' :=
  acquires_of_takesSlot h (takesSlot_nil_iff.mpr hacquire)

/-! ### Calls that are interrupted -/

/-- Evictions do not touch slots, so it makes no difference whether slots are let go of before. -/
theorem evictOf?_foldl_drop (ds : List Nat) (c : Cache κ σ) :
    (ds.foldl drop c).evictOf? idle = (c.evictOf? idle).map (ds.foldl drop) := by
  induction ds generalizing c with
  | nil => exact (congrFun Option.map_id _).symm
  | cons d ds ih =>
      have hdrop : (c.drop d).evictOf? idle = (c.evictOf? idle).map (drop · d) := by
        rw [evictOf?, evictOf?, Option.map_map]
        rfl
      rw [List.foldl_cons, ih, hdrop, Option.map_map]
      rfl

theorem evictOf?_congr {idle' : CacheEntry → Bool}
    (h : ∀ e ∈ c.entries, idle e.2 = idle' e.2) : c.evictOf? idle = c.evictOf? idle' := by
  rw [evictOf?, victimOf?, List.filter_congr h, evictOf?, victimOf?]

/-- Whatever slots are let go of while a call makes room, it makes room as it does that has found
some of them held before. -/
theorem Interrupted.makesRoom (hrun : Interrupted c ds c') (h : c.Sound)
    (hheld : ∀ i ∈ ds, (c.slot i).holders ≠ 0 → i ∈ held) :
    MakesRoom held (ds.foldl drop c) c' := by
  induction hrun generalizing held with
  | @room c ds hroom => exact .room (by simpa using hroom)
  | @crowded c order idle ds ds' hfull horder hlooks hnone =>
      obtain ⟨held', hmem, hfound⟩ := hlooks.exists_held h horder ds'
      have hsub : held' ⊆ held := fun i hi => hheld i ((hmem i).mp hi).1 ((hmem i).mp hi).2.1
      refine .crowded hsub (by simpa using hfull) ?_
      rw [← evictOf?_congr (by simpa using hfound), List.foldl_append, evictOf?_foldl_drop, hnone]
      rfl
  | @evict c c' c'' order idle ds ds' hfull horder hlooks hevict hrest ih =>
      obtain ⟨held', hmem, hfound⟩ := hlooks.exists_held h horder ds'
      have hsub : held' ⊆ held := fun i hi => hheld i ((hmem i).mp hi).1 ((hmem i).mp hi).2.1
      have hevict' : ((ds ++ ds').foldl drop c).evictOf?
          (((ds ++ ds').foldl drop c).idlePast held') = some (ds'.foldl drop c') := by
        rw [← evictOf?_congr (by simpa using hfound), List.foldl_append, evictOf?_foldl_drop,
          hevict]
        rfl
      have hidle : ∀ e ∈ (ds.foldl drop c).entries, idle e.2 = true →
          (ds.foldl drop c).isIdle e.2 = true := by
        intro e he hfound
        rw [entries_foldl_drop] at he
        exact isIdle_iff.mpr ((hlooks.found e (horder.mem_iff.mpr he)).1 hfound)
      have htrims := trims_evictOf (h.foldl_drop ds) hidle hevict
      refine .evict hsub (by simpa using hfull) hevict' (ih (htrims.sound (h.foldl_drop ds)) ?_)
      · intro i hi hne
        -- what is held still was not found idle
        rw [slot, htrims.slots, ← slot] at hne
        apply (hmem i).mpr
        refine ⟨List.mem_append_right ds hi, fun hzero => hne ?_, fun e he hidle hslot => hne ?_⟩
        · rw [holders_foldl_drop, hzero, Nat.zero_sub]
        · exact hslot ▸ (hlooks.found e (horder.mem_iff.mpr he)).1 hidle

end MakingRoom

end CriteriaQuery.Cache

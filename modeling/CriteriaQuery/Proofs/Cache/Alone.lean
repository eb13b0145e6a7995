import CriteriaQuery.Proofs.Cache.Runs

/-!
# Calls made in one go

The calls that a cache offers as functions are runs of one call, from its beginning to its end,
with whatever calls a build makes in between. Where nobody has a slot locked no call has to wait,
so the functions give results.

## Implementation notes

What a function does is told of a cache with any calls on it, whatever slots have been let go of. A
build may be anything that is such a run in turn, so the statement about calls that make values
holds for nested calls too.
-/

namespace CriteriaQuery

variable {κ σ ε : Type}

/-- The answer of a call that may have made a value. -/
def Answer.ofResult : Except ε (Made σ) → Answer σ ε
  | .ok m => .value m
  | .error e => .error e

/-- How far a call for the value of a key is that has started. -/
def Cache.Start.phase : Cache.Start σ → Phase σ ε
  | .hit m => .ended (.value m)
  | .make slot => .building slot

namespace Shared

/-- Whether the builds of a history end as they may. -/
structure Follows (may : κ → Except ε σ → Prop) (h : List (Event κ σ ε)) : Prop where
  lands : ∀ j key m, (j, .lands key m) ∈ h → may key (.ok m.value)
  fails : ∀ j key e, (j, .fails key e) ∈ h → may key (.error e)

variable {may : κ → Except ε σ → Prop} {h h' : List (Event κ σ ε)}

theorem follows_nil : Follows may ([] : List (Event κ σ ε)) where
  lands _ _ _ hmem := nomatch hmem
  fails _ _ _ hmem := nomatch hmem

theorem Follows.append (hf : Follows may h) (hf' : Follows may h') : Follows may (h ++ h') where
  lands j key m hmem := (List.mem_append.mp hmem).elim (hf.lands j key m) (hf'.lands j key m)
  fails j key e hmem := (List.mem_append.mp hmem).elim (hf.fails j key e) (hf'.fails j key e)

end Shared

/-- What happens in a section in which no build ends. -/
def Happening.Quiet : Happening κ σ ε → Prop
  | .lands _ _ => False
  | .fails _ _ => False
  | _ => True

namespace Shared

variable {may : κ → Except ε σ → Prop} {h : List (Event κ σ ε)}

theorem follows_of_quiet (hquiet : ∀ e ∈ h, e.2.Quiet) : Follows may h where
  lands _ _ _ hmem := (hquiet _ hmem).elim
  fails _ _ _ hmem := (hquiet _ hmem).elim

variable [DecidableEq κ] {c c' : Cache κ σ} {calls later : List (Call κ σ ε)}
  {request : Request κ} {phase phase' : Phase σ ε} {hs : List (Happening κ σ ε)} {key : κ}

/-- A run whose builds end as they may. -/
def Runs (may : κ → Except ε σ → Prop) (s t : Shared κ σ ε) : Prop :=
  ∃ h, Steps s h t ∧ Follows may h

theorem Runs.refl (s : Shared κ σ ε) : Runs may s s := ⟨[], .refl s, follows_nil⟩

theorem Runs.trans {s t u : Shared κ σ ε} (hst : Runs may s t) (htu : Runs may t u) :
    Runs may s u := by
  obtain ⟨h, hsteps, hfollows⟩ := hst
  obtain ⟨h', hsteps', hfollows'⟩ := htu
  exact ⟨h ++ h', hsteps.trans hsteps', hfollows.append hfollows'⟩

/-- Whether runs lead from a cache and the calls on it to another one, whatever slots have been let
go of. -/
def Leads (may : κ → Except ε σ → Prop) (s t : Cache κ σ × List (Call κ σ ε)) : Prop :=
  ∀ late, ∃ late', Runs may ⟨s.1, s.2, late⟩ ⟨t.1, t.2, late'⟩

theorem Leads.refl (s : Cache κ σ × List (Call κ σ ε)) : Leads may s s := fun late =>
  ⟨late, .refl _⟩

theorem Leads.trans {s t u : Cache κ σ × List (Call κ σ ε)} (hst : Leads may s t)
    (htu : Leads may t u) : Leads may s u := by
  intro late
  obtain ⟨late', hruns⟩ := hst late
  obtain ⟨late'', hruns'⟩ := htu late'
  exact ⟨late'', hruns.trans hruns'⟩

/-- A call moves on between others. -/
theorem leads_section (hsection : ∀ late, Cache.Section late request phase c hs phase' c')
    (hfollows : Follows may (hs.map (calls.length, ·))) :
    Leads may (c, calls ++ ⟨request, phase⟩ :: later)
      (c', calls ++ ⟨request, phase'⟩ :: later) := by
  intro late
  have hcall : (calls ++ ⟨request, phase⟩ :: later)[calls.length]? = some ⟨request, phase⟩ := by
    simp
  have hstep := Step.advance (s := ⟨c, calls ++ ⟨request, phase⟩ :: later, late⟩) hcall
    (hsection late)
  simp only [List.set_append_right _ _ (Nat.le_refl _), Nat.sub_self, List.set_cons_zero] at hstep
  exact ⟨_, _, (Steps.refl _).tail hstep, hfollows⟩

/-- A call moves on between others by a section in which no build ends. -/
theorem leads_quiet (hsection : ∀ late, Cache.Section late request phase c hs phase' c')
    (hquiet : ∀ x ∈ hs, x.Quiet) :
    Leads may (c, calls ++ ⟨request, phase⟩ :: later)
      (c', calls ++ ⟨request, phase'⟩ :: later) := by
  apply leads_section hsection
  apply follows_of_quiet
  intro e he
  obtain ⟨x, hx, rfl⟩ := List.mem_map.mp he
  exact hquiet x hx

theorem leads_begin (request : Request κ) :
    Leads may (c, calls) (c, calls ++ [⟨request, .begun⟩]) := fun late =>
  ⟨late, [], (Steps.refl _).tail (.begin _ request), follows_nil⟩

/-- A call that knows its answer leaves its slot. -/
theorem leads_leave {i : Nat} {rest : List Nat} {answer : Answer σ ε} :
    Leads may (c, calls ++ ⟨request, .served i rest answer⟩ :: later)
      (c.leave i, calls ++ ⟨request, .next answer rest⟩ :: later) :=
  (leads_quiet (fun _ => .unlock) nofun).trans (leads_quiet (fun _ => .drop) nofun)

/-- In a run, calls get what has been made for their keys, and errors of their own builds. -/
theorem Runs.of_answer {policy : CachePolicy} {s : Shared κ σ ε} (hruns : Runs may (start policy) s)
    {j : Nat} {call : Call κ σ ε} (hcall : s.calls[j]? = some call)
    (hkey : call.request.key? = some key) :
    (∀ m, call.phase.answer? = some (.value m) → may key (.ok m.value)) ∧
      ∀ e, call.phase.answer? = some (.error e) → may key (.error e) := by
  obtain ⟨h, hsteps, hfollows⟩ := hruns
  have ha := accounts_of_steps hsteps
  constructor
  · intro m hvalue
    obtain ⟨b, hmem⟩ := ha.values j call key m hcall hkey hvalue
    exact hfollows.lands b key m hmem
  · intro e herror
    exact hfollows.fails j key e (ha.errors j call key e hcall hkey herror)

/-! ### The functions as runs -/

theorem leads_start {start : Cache.Start σ} (h : c.start? key = some (start, c')) :
    Leads may (c, calls) (c', calls ++ [⟨.fetch key, start.phase⟩]) := by
  refine (leads_begin (.fetch key)).trans ?_
  by_cases hon : c.policy.enabled = true
  · rw [Cache.start?, if_pos hon] at h
    obtain ⟨locked, hlock, h⟩ := Option.bind_eq_some_iff.mp h
    refine (leads_quiet (fun _ => .tick hon) nofun).trans ?_
    refine (leads_quiet (fun _ => .acquire (Cache.takesSlot_acquire rfl)) ?_).trans ?_
    · simp [Happening.Quiet]
    · split at h
      · next m hm =>
          obtain ⟨rfl, rfl⟩ := Prod.mk.inj (Option.some.inj h)
          exact (leads_quiet (fun _ => .hit hlock hm) (by simp [Happening.Quiet])).trans leads_leave
      · next hnone =>
          obtain ⟨rfl, rfl⟩ := Prod.mk.inj (Option.some.inj h)
          exact leads_quiet (fun _ => .miss hlock hnone) (by simp [Happening.Quiet])
  · rw [Cache.start?, if_neg hon] at h
    obtain ⟨rfl, rfl⟩ := Prod.mk.inj (Option.some.inj h)
    exact leads_quiet (fun _ => .bypass (by simpa using hon)) (by simp [Happening.Quiet])

theorem leads_finish {slot : Option Nat} {result : Except ε σ} (hmay : may key result)
    {answer : Except ε (Made σ)} (h : c.finish slot result = (answer, c')) :
    Leads may (c, calls ++ ⟨.fetch key, .building slot⟩ :: later)
      (c', calls ++ ⟨.fetch key, .ended (.ofResult answer)⟩ :: later) := by
  have hlands : ∀ {v serial}, may key (.ok v) →
      Follows may ([.lands key ⟨serial, v⟩].map (calls.length, ·)) := fun hmay =>
    ⟨fun j key' m hmem => by simp_all, fun j key' e hmem => by simp at hmem⟩
  have hfails : ∀ {e}, may key (.error e) →
      Follows may ([.fails key e].map (calls.length, ·)) := fun hmay =>
    ⟨fun j key' m hmem => by simp at hmem, fun j key' e hmem => by simp_all⟩
  cases slot with
  | none =>
      cases result with
      | ok v =>
          obtain ⟨rfl, rfl⟩ := Prod.mk.inj h
          exact leads_section (fun _ => .landUnkept rfl) (hlands hmay)
      | error e =>
          obtain ⟨rfl, rfl⟩ := Prod.mk.inj h
          exact leads_section (fun _ => .failUnkept e) (hfails hmay)
  | some i =>
      cases result with
      | ok v =>
          obtain ⟨rfl, rfl⟩ := Prod.mk.inj h
          exact (leads_section (fun _ => .land rfl) (hlands hmay)).trans leads_leave
      | error e =>
          obtain ⟨rfl, rfl⟩ := Prod.mk.inj h
          exact (leads_section (fun _ => .fail e) (hfails hmay)).trans leads_leave

/-- Whether all that a function does on a cache is to make calls, which it brings to their end. -/
def Performs (may : κ → Except ε σ → Prop) {α : Type}
    (f : Cache κ σ → Option (α × Cache κ σ)) : Prop :=
  ∀ c r c', f c = some (r, c') → ∀ calls : List (Call κ σ ε), ∃ later,
    (∀ call ∈ later, ∃ answer, call.phase = .ended answer) ∧
      Leads may (c, calls) (c', calls ++ later)

/-- A call for the value of a key ends with its result, whatever calls its build has made. -/
theorem leads_getOrBuild {build : Cache κ σ → Option (Except ε σ × Cache κ σ)}
    (hbuild : Performs may build) (hmay : ∀ c r c', build c = some (r, c') → may key r)
    {r : Except ε (Made σ)} (h : c.getOrBuild? key build = some (r, c')) :
    ∃ later, (∀ call ∈ later, ∃ answer, call.phase = .ended answer) ∧
      Leads may (c, calls) (c', calls ++ ⟨.fetch key, .ended (.ofResult r)⟩ :: later) := by
  obtain ⟨⟨start, started⟩, hstart, h⟩ := Option.bind_eq_some_iff.mp h
  cases start with
  | hit m =>
      obtain ⟨rfl, rfl⟩ := Prod.mk.inj (Option.some.inj h)
      exact ⟨[], List.forall_mem_nil _, leads_start hstart⟩
  | make slot =>
      obtain ⟨⟨result, built⟩, hresult, h⟩ := Option.bind_eq_some_iff.mp h
      obtain ⟨later, hended, hleads⟩ :=
        hbuild _ _ _ hresult (calls ++ [⟨.fetch key, .building slot⟩])
      rw [List.append_assoc] at hleads
      refine ⟨later, hended, ((leads_start hstart).trans hleads).trans ?_⟩
      exact leads_finish (hmay _ _ _ hresult) (Option.some.inj h)

/-- So a build may ask the cache for the values of other keys. -/
theorem performs_getOrBuild {build : Cache κ σ → Option (Except ε σ × Cache κ σ)}
    (hbuild : Performs may build) (hmay : ∀ c r c', build c = some (r, c') → may key r) :
    Performs may (Cache.getOrBuild? key build) := by
  intro c r c' h calls
  obtain ⟨later, hended, hleads⟩ := leads_getOrBuild hbuild hmay h
  refine ⟨_, ?_, hleads⟩
  rintro call (_ | ⟨_, hcall⟩)
  · exact ⟨_, rfl⟩
  · exact hended call hcall

theorem leads_get {found : Option (Made σ)} (h : c.get? key = some (found, c')) :
    Leads may (c, calls) (c', calls ++ [⟨.peek key, .ended (.ofFound found)⟩]) := by
  refine (leads_begin (.peek key)).trans ?_
  by_cases hon : c.policy.enabled = true
  · rw [Cache.get?, if_pos hon] at h
    split at h
    · next hfind =>
        obtain ⟨rfl, rfl⟩ := Prod.mk.inj (Option.some.inj h)
        exact leads_quiet (fun _ => .absent (Or.inr hfind)) nofun
    · next i held hfind =>
        obtain ⟨locked, hlock, h⟩ := Option.bind_eq_some_iff.mp h
        obtain ⟨rfl, rfl⟩ := Prod.mk.inj (Option.some.inj h)
        refine (leads_quiet (fun _ => .find hon hfind) nofun).trans ?_
        refine (leads_quiet (fun _ => .look hlock) (by simp [Happening.Quiet])).trans ?_
        rw [← Answer.isValue_ofFound (ε := ε)]
        exact ((leads_quiet (fun _ => .release) nofun).trans
          (leads_quiet (fun _ => .count) nofun)).trans (leads_quiet (fun _ => .drop) nofun)
  · rw [Cache.get?, if_neg hon] at h
    obtain ⟨rfl, rfl⟩ := Prod.mk.inj (Option.some.inj h)
    exact leads_quiet (fun _ => .absent (Or.inl (by simpa using hon))) nofun

theorem leads_emptyAll {matching : κ → Bool} {is : List Nat} (h : c.emptyAll? is = some c') :
    Leads may (c, calls ++ [⟨.invalidate matching, .next .done is⟩])
      (c', calls ++ [⟨.invalidate matching, .ended .done⟩]) := by
  induction is generalizing c with
  | nil =>
      obtain rfl := Option.some.inj h
      exact .refl _
  | cons i rest ih =>
      obtain ⟨emptied, hempty, h⟩ := Option.bind_eq_some_iff.mp h
      obtain ⟨locked, hlock, rfl⟩ := Option.map_eq_some_iff.mp hempty
      exact ((leads_quiet (fun _ => .empty hlock) (by simp [Happening.Quiet])).trans
        leads_leave).trans (ih h)

theorem leads_invalidate {matching : κ → Bool} (h : c.invalidate? matching = some c') :
    Leads may (c, calls) (c', calls ++ [⟨.invalidate matching, .ended .done⟩]) := by
  have hsweep : c.sweepOf (c.idlePast []) matching = c.sweep matching := by
    rw [Cache.idlePast_nil, Cache.sweep]
  refine (leads_begin (.invalidate matching)).trans ?_
  refine (leads_quiet (fun late => .sweep (List.nil_subset late) hsweep (.refl _))
    (by simp [Happening.Quiet])).trans ?_
  exact leads_emptyAll h

end Shared

/-! ### Calls that need not wait -/

namespace Cache

variable {c : Cache κ σ}

/-- Whether no slot is locked. -/
def Free (c : Cache κ σ) : Prop := ∀ i, (c.slot i).locked = false

theorem Free.lock_eq (hf : c.Free) (i : Nat) : c.lock? i = some (c.lock i) :=
  lock?_eq_some_iff.mpr ⟨hf i, rfl⟩

theorem Free.exists_emptyAll (hf : c.Free) (is : List Nat) : ∃ c', c.emptyAll? is = some c' := by
  induction is generalizing c with
  | nil => exact ⟨c, rfl⟩
  | cons i rest ih =>
      have hfree : (((c.lock i).fill i none).leave i).Free := by
        intro j
        rw [leave, locked_drop, locked_unlock, locked_fill, lock, slot_modifySlot]
        by_cases hij : i = j
        · rw [if_pos hij]
        · rw [if_neg hij, if_neg fun h => hij h.1, hf j]
      obtain ⟨c', hrest⟩ := ih hfree
      refine ⟨c', ?_⟩
      unfold emptyAll? empty?
      rw [hf.lock_eq]
      exact hrest

theorem Free.exists_invalidate (hf : c.Free) (hs : c.Sound) (matching : κ → Bool) :
    ∃ c', c.invalidate? matching = some c' := by
  have hfree : (c.sweep matching).2.Free := fun i =>
    ((sweeps_sweepOf hs (fun _ _ => id) matching).locked i).trans (hf i)
  exact hfree.exists_emptyAll _

variable [DecidableEq κ]

theorem start?_hit {held locked : Cache κ σ} {key : κ} {i : Nat} {m : Made σ}
    (hon : c.policy.enabled = true) (hacquire : c.tick.2.acquire key c.tick.1 = (i, held))
    (hlock : held.lock? i = some locked) (hm : (locked.slot i).content = some m) :
    c.start? key = some (.hit m, (locked.count true).leave i) := by
  simp [start?, hon, hacquire, hlock, hm]

theorem start?_miss {held locked : Cache κ σ} {key : κ} {i : Nat}
    (hon : c.policy.enabled = true) (hacquire : c.tick.2.acquire key c.tick.1 = (i, held))
    (hlock : held.lock? i = some locked) (hnone : (locked.slot i).content = none) :
    c.start? key = some (.make (some i), locked.count false) := by
  simp [start?, hon, hacquire, hlock, hnone]

theorem Free.exists_start (hf : c.Free) (hs : c.Sound) (key : κ) : ∃ r, c.start? key = some r := by
  by_cases hon : c.policy.enabled = true
  · obtain ⟨⟨i, held⟩, hacquire⟩ : ∃ r, c.tick.2.acquire key c.tick.1 = r := ⟨_, rfl⟩
    have hacquires := acquires_of_acquire (c := c.tick.2) ⟨hs.keys, hs.slots, hs.inRange⟩ hacquire
    have hfree : held.Free := fun j => (hacquires.locked j).trans (hf j)
    cases hcontent : ((held.lock i).slot i).content with
    | some m => exact ⟨_, start?_hit hon hacquire (hfree.lock_eq i) hcontent⟩
    | none => exact ⟨_, start?_miss hon hacquire (hfree.lock_eq i) hcontent⟩
  · exact ⟨_, if_neg hon⟩

theorem Free.exists_getOrBuild {ε : Type} (hf : c.Free) (hs : c.Sound) (key : κ)
    {build : Cache κ σ → Option (Except ε σ × Cache κ σ)} (hbuild : ∀ c, ∃ r, build c = some r) :
    ∃ r, c.getOrBuild? key build = some r := by
  obtain ⟨⟨start, started⟩, hstart⟩ := hf.exists_start hs key
  unfold getOrBuild?
  rw [hstart]
  cases start with
  | hit m => exact ⟨_, rfl⟩
  | make slot =>
      obtain ⟨⟨result, built⟩, hresult⟩ := hbuild started
      exact ⟨built.finish slot result, by simp [hresult]⟩

theorem Free.exists_get (hf : c.Free) (key : κ) : ∃ r, c.get? key = some r := by
  unfold get?
  split
  · split
    · exact ⟨_, rfl⟩
    · next i held hfind =>
        obtain ⟨e, -, heq⟩ := Option.map_eq_some_iff.mp hfind
        obtain ⟨rfl, rfl⟩ := Prod.mk.inj heq
        have hfree : (c.hold e.slot).Free := fun i => locked_hold.trans (hf i)
        rw [hfree.lock_eq]
        exact ⟨_, rfl⟩
  · exact ⟨_, rfl⟩

/-- Whether a cache has come about by calls that have all ended. -/
def Idle (may : κ → Except ε σ → Prop) (c : Cache κ σ) : Prop :=
  ∃ (policy : CachePolicy) (calls : List (Call κ σ ε)) (late : List Nat),
    (∀ call ∈ calls, ∃ answer, call.phase = .ended answer) ∧
      Shared.Runs may (.start policy) ⟨c, calls, late⟩

theorem idle_start (may : κ → Except ε σ → Prop) (policy : CachePolicy) :
    Idle may ({ policy } : Cache κ σ) :=
  ⟨policy, [], [], nofun, .refl _⟩

/-- In an idle cache no call has to wait. -/
theorem Idle.free {may : κ → Except ε σ → Prop} (hi : c.Idle may) : c.Sound ∧ c.Free := by
  obtain ⟨policy, calls, late, hended, h, hsteps, -⟩ := hi
  have hs := Shared.sound_of_steps hsteps
  refine ⟨hs.cache, fun i => ?_⟩
  by_contra hlocked
  obtain ⟨j, call, hcall, hlocks⟩ := hs.exists_locks (by simpa using hlocked)
  obtain ⟨answer, hphase⟩ := hended call (List.mem_of_getElem? hcall)
  rw [hphase] at hlocks
  nomatch hlocks

/-- A call on an idle cache that ends leaves it idle, and gives what has been made for its key. -/
theorem Idle.of_runs {may : κ → Except ε σ → Prop} (hi : c.Idle may) {c' : Cache κ σ}
    {request : Request κ} {answer : Answer σ ε} (hleads : ∀ calls : List (Call κ σ ε), ∃ later,
      (∀ call ∈ later, ∃ answer, call.phase = .ended answer) ∧
        Shared.Leads may (c, calls) (c', calls ++ ⟨request, .ended answer⟩ :: later)) :
    c'.Idle may ∧ ∀ key, request.key? = some key →
      (∀ m, answer = .value m → may key (.ok m.value)) ∧
        ∀ e, answer = .error e → may key (.error e) := by
  obtain ⟨policy, calls, late, hended, hstart⟩ := hi
  obtain ⟨later, hlater, hlater'⟩ := hleads calls
  obtain ⟨late', hruns⟩ := hlater' late
  have hruns' := hstart.trans hruns
  refine ⟨⟨policy, _, late', ?_, hruns'⟩, fun key hkey => ?_⟩
  · intro call hcall
    rcases List.mem_append.mp hcall with hcall | _ | ⟨_, hcall⟩
    · exact hended call hcall
    · exact ⟨answer, rfl⟩
    · exact hlater call hcall
  · have hcall : (calls ++ ⟨request, .ended answer⟩ :: later)[calls.length]? =
        some ⟨request, .ended answer⟩ := by simp
    obtain ⟨hvalue, herror⟩ := hruns'.of_answer hcall hkey
    exact ⟨fun m hm => hvalue m (congrArg some hm), fun e he => herror e (congrArg some he)⟩

end Cache

end CriteriaQuery

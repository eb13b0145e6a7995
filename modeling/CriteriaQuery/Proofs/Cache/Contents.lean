import CriteriaQuery.Proofs.Cache.Runs

/-!
# What a key holds while calls overlap

In a cache that keeps values, the value of a key stays as long as the key is not forgotten, and
nobody makes another one; whoever reads the slot of the key gives that value. A key without a value
stays without one until one lands, and whoever asks for it starts to make one.
-/

namespace CriteriaQuery

variable {κ σ ε : Type}

/-- Whether a call is making a value for a key. -/
def Call.Builds (call : Call κ σ ε) (key : κ) : Prop :=
  call.request = .fetch key ∧ ∃ slot, call.phase = .building slot

namespace Shared

/-- What a state has to which a cache that keeps values has come. -/
structure Keeps (s : Shared κ σ ε) : Prop where
  sound : s.Sound
  proper : s.Proper
  enabled : s.cache.policy.enabled = true

/-- Whether no value is being made for a slot. -/
def Unbuilt (s : Shared κ σ ε) (i : Nat) : Prop :=
  ∀ (j : Nat) (call : Call κ σ ε), s.calls[j]? = some call → call.phase ≠ .building (some i)

end Shared

/-- Whether a call gives a value, or has yet to read what it will give. -/
def Phase.Gives (m : Made σ) (phase : Phase σ ε) : Prop :=
  phase.Unread ∨ phase.answer? = some (.value m)

/-- A call makes a value for the slot of its key. -/
theorem Shared.Keeps.exists_building {s : Shared κ σ ε} (hs : s.Keeps) {j : Nat}
    {call : Call κ σ ε} {key : κ} (hcall : s.calls[j]? = some call) (hbuilds : call.Builds key) :
    ∃ i, call.phase = .building (some i) ∧ (key, i) ∈ s.cache.places := by
  obtain ⟨hrequest, slot, hphase⟩ := hbuilds
  obtain ⟨i, rfl⟩ : ∃ i, slot = some i :=
    Option.ne_none_iff_exists'.mp fun hnone =>
      hs.proper.kept hs.enabled j call hcall (hnone ▸ hphase)
  exact ⟨i, hphase, hs.sound.place_of_key hcall (by rw [hrequest]; rfl)
    (Phase.mem_holds_of_building hphase)⟩

/-- Two calls never make values for the same key. -/
theorem Shared.Keeps.eq_of_builds {s : Shared κ σ ε} (hs : s.Keeps) {j k : Nat}
    {call call' : Call κ σ ε} {key : κ} (hcall : s.calls[j]? = some call)
    (hcall' : s.calls[k]? = some call') (hbuilds : call.Builds key)
    (hbuilds' : call'.Builds key) : j = k := by
  obtain ⟨i, hphase, hplace⟩ := hs.exists_building hcall hbuilds
  obtain ⟨i', hphase', hplace'⟩ := hs.exists_building hcall' hbuilds'
  obtain rfl := hs.sound.cache.slot_eq hplace hplace'
  exact hs.sound.eq_of_locks hcall hcall' (Phase.locks_of_building hphase)
    (Phase.locks_of_building hphase')

variable [DecidableEq κ]

namespace Cache

variable {c c' : Cache κ σ} {request : Request κ} {phase phase' : Phase σ ε}
  {hs : List (Happening κ σ ε)} {key : κ} {m : Made σ} {late : List Nat}

/-- A call that reads the slot of its key gives what the slot holds. -/
theorem Section.gives (h : Fits c request phase) (hon : c.policy.enabled = true)
    (hkey : request.key? = some key) (hm : c.content? key = some m) (hrest : phase.rest = [])
    (hsection : Section late request phase c hs phase' c') (hgives : phase.Gives m) :
    phase'.Gives m := by
  have hcontent : ∀ i ∈ phase.holds, (c.slot i).content = some m := by
    intro i hi
    obtain ⟨key', hconcerns, hplace⟩ := h.placed i hi
    obtain rfl := (Request.concerns_iff hkey).mp hconcerns
    rw [← hm, h.sound.content?_eq hplace]
  cases hsection with
  | bypass hoff => exact absurd hon (by simp [hoff])
  | tick => exact Or.inl trivial
  | acquire => exact Or.inl trivial
  | find => exact Or.inl trivial
  | @hit _ i c c' m' hlock hfound =>
      obtain ⟨-, rfl⟩ := lock?_eq_some_iff.mp hlock
      rw [content_lock, hcontent i List.mem_cons_self] at hfound
      obtain rfl := Option.some.inj hfound
      exact Or.inr rfl
  | @miss _ i c c' hlock hnone =>
      obtain ⟨-, rfl⟩ := lock?_eq_some_iff.mp hlock
      rw [content_lock, hcontent i List.mem_cons_self] at hnone
      cases hnone
  | @look _ i c c' hlock =>
      obtain ⟨-, rfl⟩ := lock?_eq_some_iff.mp hlock
      rw [content_lock, hcontent i List.mem_cons_self]
      exact Or.inr rfl
  | @absent key' _ hoff =>
      obtain rfl : key' = key := Option.some.inj hkey
      have hnone : c.find? key' = none := hoff.resolve_left (by simp [hon])
      have hentry : c.entry? key' = none := Option.map_eq_none_iff.mp hnone
      simp [content?, hentry] at hm
  | sweep => cases hkey
  | empty => cases hkey
  | release => exact hgives
  | count => exact hgives
  | unlock => exact hgives
  | @drop _ i rest =>
      obtain rfl : rest = [] := hrest
      exact hgives
  | _ =>
      rcases hgives with hunread | hanswer
      · exact hunread.elim
      · cases hanswer

end Cache

namespace Shared

variable {s t : Shared κ σ ε} {h es : List (Event κ σ ε)} {key : κ} {m : Made σ} {j : Nat}
  {call : Call κ σ ε}

theorem Keeps.of_step (hs : s.Keeps) (hstep : Step s es t) : t.Keeps where
  sound := hs.sound.of_step hstep
  proper := hs.proper.of_step hs.sound hstep
  enabled := policy_of_step hs.sound hstep ▸ hs.enabled

theorem Keeps.of_steps (hs : s.Keeps) (hsteps : Steps s h t) : t.Keeps := by
  induction hsteps with
  | refl => exact hs
  | tail _ hstep ih => exact ih.of_step hstep

theorem keeps_of_steps {policy : CachePolicy} (hon : policy.enabled = true)
    (hsteps : Steps (start policy) h s) : s.Keeps :=
  Keeps.of_steps ⟨sound_start policy, proper_start policy, hon⟩ hsteps

/-! ### What steps do to the content of a key -/

theorem content?_of_step (hs : s.Keeps)
    (hstep : Step s es t) (key : κ) :
    t.cache.content? key = es.foldl (fun held e => e.2.update key held) (s.cache.content? key) := by
  cases hstep with
  | begin => rfl
  | advance hcall hsection =>
      rw [List.foldl_map]
      exact hsection.content?_eq (hs.sound.fits hcall) (hs.proper.kept hs.enabled _ _ hcall) key

theorem eq_content?_of_reads (hs : s.Sound) (hstep : Step s es t) {found : Option (Made σ)}
    (hreads : (j, .reads key found) ∈ es) : found = s.cache.content? key := by
  obtain ⟨before, _, _, hbefore, -, -, -, hmem, hsection⟩ := hstep.of_mem hreads
  obtain ⟨hkey, ⟨i, hphase, -, hfound⟩, -⟩ := hsection.of_reads hmem
  have hplace := hs.place_of_key hbefore hkey (Phase.mem_holds_of_waiting hphase)
  rw [hfound, hs.cache.content?_eq hplace]

/-- While a key has a value, nobody makes another one for it. -/
theorem Keeps.not_builds (hs : s.Keeps)
    (hm : s.cache.content? key = some m) (hcall : s.calls[j]? = some call) :
    ¬ call.Builds key := by
  intro hbuilds
  obtain ⟨i, hphase, hplace⟩ := hs.exists_building hcall hbuilds
  rw [hs.sound.cache.content?_eq hplace, hs.sound.empty j call hcall i hphase] at hm
  cases hm

/-- A key keeps its value as long as it is not forgotten. -/
theorem kept_of_step (hs : s.Keeps)
    (hm : s.cache.content? key = some m) (hstep : Step s es t)
    (hforgets : ∀ j, (j, .forgets key) ∉ es) :
    t.cache.content? key = some m ∧ ∀ j, (j, .builds key) ∉ es := by
  have hlands : ∀ j m', (j, .lands key m') ∉ es := by
    intro j m' hmem
    obtain ⟨before, _, _, hbefore, -, -, -, hmem, hsection⟩ := hstep.of_mem hmem
    obtain ⟨hrequest, hphase, -⟩ := hsection.of_lands hmem
    exact hs.not_builds hm hbefore ⟨hrequest, hphase⟩
  constructor
  · rw [content?_of_step hs hstep, hm]
    refine List.foldlRecOn (motive := (· = some m)) es _ rfl ?_
    rintro _ rfl ⟨j, x⟩ hmem
    cases x with
    | lands key' m' =>
        have hkey : key' ≠ key := fun heq => hlands j m' (heq ▸ hmem)
        simp [Happening.update, hkey]
    | forgets key' =>
        have hkey : key' ≠ key := fun heq => hforgets j (heq ▸ hmem)
        simp [Happening.update, hkey]
    | _ => rfl
  · intro j hmem
    obtain ⟨before, _, _, hbefore, -, -, rfl, hmem, hsection⟩ := hstep.of_mem hmem
    have hreads := (hsection.of_builds hmem).2.2 hs.enabled
    have hfound := eq_content?_of_reads hs.sound hstep (List.mem_map_of_mem hreads)
    cases hfound.trans hm

/-- A key stays without a value until one lands. -/
theorem unfilled_of_step (hs : s.Keeps)
    (hnone : s.cache.content? key = none) (hstep : Step s es t)
    (hlands : ∀ j m, (j, .lands key m) ∉ es) : t.cache.content? key = none := by
  rw [content?_of_step hs hstep, hnone]
  refine List.foldlRecOn (motive := (· = none)) es _ rfl ?_
  rintro _ rfl ⟨j, x⟩ hmem
  cases x with
  | lands key' m' =>
      have hkey : key' ≠ key := fun heq => hlands j m' (heq ▸ hmem)
      simp [Happening.update, hkey]
  | forgets key' => simp [Happening.update]
  | _ => rfl

theorem gives_of_step (hs : s.Keeps)
    (hm : s.cache.content? key = some m) (hstep : Step s es t) (hcall : t.calls[j]? = some call)
    (hkey : call.request.key? = some key)
    (hbefore : ∀ before, s.calls[j]? = some before → before.phase.Gives m) :
    call.phase.Gives m := by
  rcases hstep.call_cases hcall with
    hcall | ⟨-, hbegun⟩ | ⟨before, _, hcall, hrequest, -, hsection⟩
  · exact hbefore call hcall
  · exact Or.inl (hbegun ▸ trivial)
  · have hfits := hrequest ▸ hs.sound.fits hcall
    have hrest := hs.proper.single j before hcall key (hrequest ▸ hkey)
    exact hsection.gives hfits hs.enabled hkey hm hrest (hbefore before hcall)

/-! ### What runs do to the content of a key -/

theorem kept_of_steps (hs : s.Keeps)
    (hm : s.cache.content? key = some m) (hsteps : Steps s h t)
    (hforgets : ∀ j, (j, .forgets key) ∉ h) :
    t.cache.content? key = some m ∧ ∀ j, (j, .builds key) ∉ h := by
  induction hsteps with
  | refl => exact ⟨hm, fun _ => List.not_mem_nil⟩
  | @tail t u h es hsteps hstep ih =>
      obtain ⟨hm', hbuilds⟩ := ih fun j hmem => hforgets j (List.mem_append_left es hmem)
      obtain ⟨hm'', hbuilds'⟩ := kept_of_step (hs.of_steps hsteps) hm' hstep
        fun j hmem => hforgets j (List.mem_append_right h hmem)
      exact ⟨hm'', fun j hmem => (List.mem_append.mp hmem).elim (hbuilds j) (hbuilds' j)⟩

/-- Whoever has not given another answer when a key has a value gives that value. -/
theorem gives_of_steps (hs : s.Keeps)
    (hm : s.cache.content? key = some m) (hsteps : Steps s h t)
    (hforgets : ∀ j, (j, .forgets key) ∉ h) (hcall : t.calls[j]? = some call)
    (hkey : call.request.key? = some key)
    (hbefore : ∀ before, s.calls[j]? = some before → before.phase.Gives m) :
    call.phase.Gives m := by
  induction hsteps generalizing call with
  | refl => exact hbefore call hcall
  | @tail t u h es hsteps hstep ih =>
      have hforgets' : ∀ j, (j, .forgets key) ∉ h :=
        fun j hmem => hforgets j (List.mem_append_left es hmem)
      refine gives_of_step (hs.of_steps hsteps) (kept_of_steps hs hm hsteps hforgets').1 hstep
        hcall hkey ?_
      intro before hbefore'
      have hsame := hstep.request_eq hbefore' hcall
      exact ih hforgets' hbefore' (hsame ▸ hkey)

/-- Until a value lands, whoever looks for one finds none, and builds if it asks for one. -/
theorem builds_of_steps (hs : s.Keeps)
    (hnone : s.cache.content? key = none) (hsteps : Steps s h t)
    (hlands : ∀ j m, (j, .lands key m) ∉ h) :
    t.cache.content? key = none ∧ ∀ j call found, t.calls[j]? = some call →
      (j, .reads key found) ∈ h → found = none ∧
        (call.request = .fetch key → (j, .builds key) ∈ h) := by
  induction hsteps with
  | refl => exact ⟨hnone, fun _ _ _ _ hmem => nomatch hmem⟩
  | @tail t u h es hsteps hstep ih =>
      obtain ⟨hnone', hreads⟩ := ih fun j m hmem => hlands j m (List.mem_append_left es hmem)
      have hs' := hs.of_steps hsteps
      refine ⟨unfilled_of_step hs' hnone' hstep
        fun j m hmem => hlands j m (List.mem_append_right h hmem), ?_⟩
      intro j call found hcall hmem
      rcases List.mem_append.mp hmem with hold | hnew
      · obtain ⟨before, hbefore⟩ := hsteps.exists_call hold
        obtain ⟨hfound, hbuilds⟩ := hreads j before found hbefore hold
        have hsame := hstep.request_eq hbefore hcall
        exact ⟨hfound, fun hrequest => List.mem_append_left _ (hbuilds (hsame ▸ hrequest))⟩
      · have hfound := (eq_content?_of_reads hs'.sound hstep hnew).trans hnone'
        refine ⟨hfound, fun hrequest => List.mem_append_right _ ?_⟩
        obtain ⟨before, after, hs, -, hafter, hsame, rfl, hmem, hsection⟩ := hstep.of_mem hnew
        obtain rfl := Option.some.inj (hafter.symm.trans hcall)
        exact List.mem_map_of_mem ((hsection.of_reads hmem).2.2 (hsame ▸ hrequest) hfound)

end Shared

end CriteriaQuery

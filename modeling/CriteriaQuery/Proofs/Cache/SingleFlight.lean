import CriteriaQuery.Proofs.Cache.Contents

/-!
# One build at a time

In a cache that keeps values, the slots that calls hold are those that the entries of their keys
point at, and for each key at most one call makes a value. Once it has landed, everybody who asks
for the key gets that value and nobody makes another, until the key is forgotten. A build that
fails leaves the slot empty, and whoever looks into it next builds.

## Implementation notes

That a call gets a value is said in two ways: it gives no other answer, and it can go on to its
end from wherever it is. All it may have to wait for is that another call unlocks the slot, which
no call puts off but one that makes a value.
-/

namespace CriteriaQuery

variable {κ σ ε : Type}

variable [DecidableEq κ]

namespace Shared

variable {s t : Shared κ σ ε} {h : List (Event κ σ ε)} {key : κ} {m : Made σ} {i j k : Nat}
  {call : Call κ σ ε}

/-! ### How calls go on -/

/-- A call that can move on by a section does so by a step. -/
theorem exists_advance {hs : List (Happening κ σ ε)} {phase : Phase σ ε} {c : Cache κ σ}
    (hcall : s.calls[k]? = some call)
    (hsection : Cache.Section s.late call.request call.phase s.cache hs phase c) :
    ∃ t, Step s (hs.map (k, ·)) t ∧ t.calls[k]? = some { call with phase } ∧ t.cache = c :=
  ⟨_, .advance hcall hsection,
    List.getElem?_set_self (List.getElem?_eq_some_iff.mp hcall).1, rfl⟩

/-- A call that knows its answer ends with it. -/
theorem steps_to_end {answer : Answer σ ε} (hcall : s.calls[k]? = some call)
    (hrest : call.phase.rest = []) (hanswer : call.phase.answer? = some answer) :
    ∃ t, Steps s [] t ∧ t.calls[k]? = some { call with phase := .ended answer } := by
  obtain ⟨request, phase⟩ := call
  have hleaving : ∀ {s : Shared κ σ ε} {i}, s.calls[k]? = some ⟨request, .leaving i [] answer⟩ →
      ∃ t, Step s [] t ∧ t.calls[k]? = some ⟨request, .ended answer⟩ := by
    intro s i hcall
    obtain ⟨t, hstep, hcall', -⟩ := exists_advance hcall .drop
    exact ⟨t, hstep, hcall'⟩
  have huncounted : ∀ {s : Shared κ σ ε} {i}, s.calls[k]? = some ⟨request, .uncounted i answer⟩ →
      ∃ t, Steps s [] t ∧ t.calls[k]? = some ⟨request, .ended answer⟩ := by
    intro s i hcall
    obtain ⟨t, hstep, hcall', -⟩ := exists_advance hcall .count
    obtain ⟨u, hstep', hcall''⟩ := hleaving hcall'
    exact ⟨u, ((Steps.refl s).tail hstep).tail hstep', hcall''⟩
  cases phase with
  | served i rest answer' =>
      obtain rfl : rest = [] := hrest
      obtain rfl : answer' = answer := Option.some.inj hanswer
      obtain ⟨t, hstep, hcall', -⟩ := exists_advance hcall .unlock
      obtain ⟨u, hstep', hcall''⟩ := hleaving hcall'
      exact ⟨u, ((Steps.refl s).tail hstep).tail hstep', hcall''⟩
  | looked i answer' =>
      obtain rfl : answer' = answer := Option.some.inj hanswer
      obtain ⟨t, hstep, hcall', -⟩ := exists_advance hcall .release
      obtain ⟨u, hsteps, hcall''⟩ := huncounted hcall'
      exact ⟨u, ((Steps.refl s).tail hstep).trans hsteps, hcall''⟩
  | uncounted i answer' =>
      obtain rfl : answer' = answer := Option.some.inj hanswer
      exact huncounted hcall
  | leaving i rest answer' =>
      obtain rfl : rest = [] := hrest
      obtain rfl : answer' = answer := Option.some.inj hanswer
      obtain ⟨t, hstep, hcall'⟩ := hleaving hcall
      exact ⟨t, (Steps.refl s).tail hstep, hcall'⟩
  | ended answer' =>
      obtain rfl : answer' = answer := Option.some.inj hanswer
      exact ⟨s, .refl s, hcall⟩
  | _ => nomatch hanswer

theorem Unbuilt.of_step (h : s.Unbuilt i) (hstep : Step s [] t) : t.Unbuilt i := by
  intro j call hcall hphase
  rcases hstep.call_cases hcall with hcall | ⟨-, hbegun⟩ | ⟨_, hs, -, -, hnil, hsection⟩
  · exact h j call hcall hphase
  · exact absurd (hphase.symm.trans hbegun) nofun
  · obtain rfl : hs = [] := List.map_eq_nil_iff.mp hnil.symm
    obtain ⟨_, -, hmem⟩ := hsection.builds_of_building hphase
    nomatch hmem

/-- A call that waits for a slot at which no value is being made gets to it. -/
theorem steps_to_free (hs : s.Sound) (hcall : s.calls[k]? = some call)
    (hphase : call.phase = .waiting i []) (hunbuilt : s.Unbuilt i) :
    ∃ t, Steps s [] t ∧ t.calls[k]? = some call ∧ (t.cache.slot i).locked = false := by
  cases hlocked : (s.cache.slot i).locked with
  | false => exact ⟨s, .refl s, hcall, hlocked⟩
  | true =>
      obtain ⟨j, ⟨request, phase⟩, hcall', hlocks⟩ := hs.exists_locks hlocked
      have hjk : j ≠ k := by
        rintro rfl
        obtain rfl := Option.some.inj (hcall.symm.trans hcall')
        obtain rfl : phase = .waiting i [] := hphase
        nomatch hlocks
      have hunlocks : ∀ {phase'}, Cache.Section s.late request phase s.cache [] phase'
          (s.cache.unlock i) →
          ∃ t, Steps s [] t ∧ t.calls[k]? = some call ∧ (t.cache.slot i).locked = false := by
        intro phase' hsection
        refine ⟨_, (Steps.refl s).tail (.advance hcall' hsection), ?_, ?_⟩
        · rw [List.getElem?_set_ne hjk, hcall]
        · rw [Cache.locked_unlock, if_pos rfl]
      cases phase with
      | building slot =>
          obtain rfl : slot = some i := hlocks
          exact absurd rfl (hunbuilt j _ hcall')
      | served i' rest answer =>
          obtain rfl : i' = i := Option.some.inj hlocks
          exact hunlocks .unlock
      | looked i' answer =>
          obtain rfl : i' = i := Option.some.inj hlocks
          exact hunlocks .release
      | _ => nomatch hlocks

/-- A call that has its time gets to the slot of its key. -/
theorem step_to_waiting (hs : s.Sound) (hplace : (key, i) ∈ s.cache.places) {now : Nat}
    (hcall : s.calls[k]? = some ⟨.fetch key, .timed now⟩) :
    ∃ t, Step s [] t ∧ t.calls[k]? = some ⟨.fetch key, .waiting i []⟩ := by
  obtain ⟨i', c', htakes⟩ : ∃ i' c', Cache.TakesSlot s.late key now s.cache i' c' :=
    ⟨_, _, Cache.takesSlot_acquire rfl⟩
  have hacquires := Cache.acquires_of_takesSlot hs.cache htakes
  have hold : (key, i') ∈ s.cache.places :=
    (hacquires.of_mem _ hacquires.mem).resolve_right fun hnew => hnew.1 i hplace
  have hlost : s.cache.lost c' = [] := by
    apply List.eq_nil_iff_forall_not_mem.mpr
    intro key' hmem
    obtain ⟨⟨j, hj⟩, hgone⟩ := Cache.mem_lost_iff.mp hmem
    exact hgone j (hacquires.kept hold ▸ hj)
  obtain ⟨t, hstep, hcall', -⟩ := exists_advance hcall (.acquire htakes)
  rw [hlost] at hstep
  rw [hs.cache.slot_eq hold hplace] at hcall'
  exact ⟨t, hstep, hcall'⟩

/-- A call that has not looked at the slot of its key gets to it, if the key has one at which no
value is being made. -/
theorem steps_to_slot (hs : s.Keeps)
    (hplace : (key, i) ∈ s.cache.places) (hcall : s.calls[k]? = some call)
    (hkey : call.request.key? = some key) (hunread : call.phase.Unread) (hunbuilt : s.Unbuilt i) :
    ∃ t, Steps s [] t ∧ t.calls[k]? = some { call with phase := .waiting i [] } ∧
      (t.cache.slot i).locked = false := by
  -- every way leads through the state in which the call waits
  suffices hwaiting : ∃ t, Steps s [] t ∧ t.Unbuilt i ∧
      t.calls[k]? = some { call with phase := .waiting i [] } by
    obtain ⟨t, hsteps, hunbuilt', hcall'⟩ := hwaiting
    obtain ⟨u, hsteps', hcall'', hfree⟩ :=
      steps_to_free (hs.of_steps hsteps).sound hcall' rfl hunbuilt'
    exact ⟨u, hsteps.trans hsteps', hcall'', hfree⟩
  obtain ⟨request, phase⟩ := call
  cases phase with
  | begun =>
      cases request with
      | fetch key' =>
          obtain rfl : key' = key := Option.some.inj hkey
          obtain ⟨t, hstep, hcall', hcache⟩ := exists_advance hcall (.tick hs.enabled)
          have hplace' : (key', i) ∈ t.cache.places := by
            rw [hcache]
            exact hplace
          obtain ⟨u, hstep', hcall''⟩ := step_to_waiting (hs.of_step hstep).sound hplace' hcall'
          exact ⟨u, ((Steps.refl s).tail hstep).tail hstep',
            (hunbuilt.of_step hstep).of_step hstep', hcall''⟩
      | peek key' =>
          obtain rfl : key' = key := Option.some.inj hkey
          obtain ⟨e, hentry, rfl⟩ := hs.sound.cache.exists_entry hplace
          have hfind : s.cache.find? key' = some (e.slot, s.cache.hold e.slot) := by
            rw [Cache.find?, hentry]
            rfl
          obtain ⟨t, hstep, hcall', -⟩ := exists_advance hcall (.find hs.enabled hfind)
          exact ⟨t, (Steps.refl s).tail hstep, hunbuilt.of_step hstep, hcall'⟩
      | invalidate => nomatch hkey
  | timed now =>
      obtain ⟨key', hrequest⟩ := hs.proper.timed k _ now hcall rfl
      obtain rfl : request = .fetch key' := hrequest
      obtain rfl : key' = key := Option.some.inj hkey
      obtain ⟨t, hstep, hcall'⟩ := step_to_waiting hs.sound hplace hcall
      exact ⟨t, (Steps.refl s).tail hstep, hunbuilt.of_step hstep, hcall'⟩
  | waiting i' rest =>
      obtain rfl : rest = [] := hs.proper.single k _ hcall key hkey
      obtain rfl :=
        hs.sound.cache.slot_eq (hs.sound.place_of_key hcall hkey List.mem_cons_self) hplace
      exact ⟨s, .refl s, hunbuilt, hcall⟩
  | _ => exact hunread.elim

/-- A call that gets to the slot of its key reads what is there. -/
theorem step_to_read (hcall : s.calls[k]? = some call) (hkey : call.request.key? = some key)
    (hphase : call.phase = .waiting i []) (hfree : (s.cache.slot i).locked = false)
    (hm : (s.cache.slot i).content = some m) :
    ∃ t phase, Step s [(k, .reads key (some m))] t ∧ t.calls[k]? = some { call with phase } ∧
      phase.rest = [] ∧ phase.answer? = some (.value m) := by
  obtain ⟨request, phase⟩ := call
  obtain rfl : phase = .waiting i [] := hphase
  have hlock : s.cache.lock? i = some (s.cache.lock i) := Cache.lock?_eq_some_iff.mpr ⟨hfree, rfl⟩
  have hm' : ((s.cache.lock i).slot i).content = some m := Cache.content_lock.trans hm
  cases request with
  | fetch key' =>
      obtain rfl : key' = key := Option.some.inj hkey
      obtain ⟨t, hstep, hcall', -⟩ := exists_advance hcall (.hit hlock hm')
      exact ⟨t, _, hstep, hcall', rfl, rfl⟩
  | peek key' =>
      obtain rfl : key' = key := Option.some.inj hkey
      obtain ⟨t, hstep, hcall', -⟩ := exists_advance hcall (.look hlock)
      rw [hm'] at hstep hcall'
      exact ⟨t, _, hstep, hcall', rfl, rfl⟩
  | invalidate => nomatch hkey

/-- A call that asks for a value and finds none starts to make one. -/
theorem step_to_build (hcall : s.calls[k]? = some ⟨.fetch key, .waiting i []⟩)
    (hfree : (s.cache.slot i).locked = false) (hnone : (s.cache.slot i).content = none) :
    ∃ t, Step s [(k, .reads key none), (k, .builds key)] t ∧
      t.calls[k]? = some ⟨.fetch key, .building (some i)⟩ := by
  have hlock : s.cache.lock? i = some (s.cache.lock i) := Cache.lock?_eq_some_iff.mpr ⟨hfree, rfl⟩
  obtain ⟨t, hstep, hcall', -⟩ :=
    exists_advance hcall (.miss hlock (Cache.content_lock.trans hnone))
  exact ⟨t, hstep, hcall'⟩

/-- A call gives no answer but a value of its key, and can go on to its end with that answer,
while nothing happens but that it reads the value. -/
def EndsWith (s : Shared κ σ ε) (k : Nat) (call : Call κ σ ε) (key : κ) (m : Made σ) : Prop :=
  (∀ answer, call.phase.answer? = some answer → answer = .value m) ∧
    ∃ h t, Steps s h t ∧ (∀ e ∈ h, e = (k, .reads key (some m))) ∧
      t.calls[k]? = some { call with phase := .ended (.value m) }

/-- Whoever has yet to read the slot of a key, or gives its value, ends with that value. -/
theorem endsWith_of_gives (hs : s.Keeps)
    (hm : s.cache.content? key = some m) (hcall : s.calls[k]? = some call)
    (hkey : call.request.key? = some key) (hgives : call.phase.Gives m) :
    s.EndsWith k call key m := by
  rcases hgives with hunread | hvalue
  · constructor
    · intro answer hanswer
      rw [Phase.answer?_eq_none hunread] at hanswer
      nomatch hanswer
    obtain ⟨i, hplace⟩ : ∃ i, (key, i) ∈ s.cache.places := by
      by_contra hnone
      rw [Cache.content?_eq_none (not_exists.mp hnone)] at hm
      nomatch hm
    have hunbuilt : s.Unbuilt i := by
      intro j call' hcall' hphase
      rw [hs.sound.cache.content?_eq hplace, hs.sound.empty j call' hcall' i hphase] at hm
      nomatch hm
    obtain ⟨t, hsteps, hcall', hfree⟩ := steps_to_slot hs hplace hcall hkey hunread hunbuilt
    have hm' : (t.cache.slot i).content = some m := by
      have ht := (hs.of_steps hsteps).sound
      have hplace' := ht.place_of_key hcall' hkey List.mem_cons_self
      have hkept := (kept_of_steps hs hm hsteps fun _ => List.not_mem_nil).1
      rwa [ht.cache.content?_eq hplace'] at hkept
    obtain ⟨u, phase, hstep, hcall'', hrest, hanswer⟩ := step_to_read hcall' hkey rfl hfree hm'
    obtain ⟨v, hend, hcall'''⟩ := steps_to_end hcall'' hrest hanswer
    exact ⟨_, v, (hsteps.tail hstep).trans hend, by simp, hcall'''⟩
  · have hrest := hs.proper.single k call hcall key hkey
    obtain ⟨t, hsteps, hcall'⟩ := steps_to_end hcall hrest hvalue
    refine ⟨fun answer hanswer => ?_, [], t, hsteps, nofun, hcall'⟩
    exact Option.some.inj (hanswer.symm.trans hvalue)

/-- A build that fails leaves the slot of its key empty, with nobody at work on it. -/
theorem empty_of_fails (hs : s.Keeps) {b : Nat}
    {e : ε} (hstep : Step s [(b, .fails key e)] t) :
    ∃ i, (key, i) ∈ t.cache.places ∧ t.cache.content? key = none ∧ t.Unbuilt i := by
  obtain ⟨before, after, hs', hbefore, hafter, hsame, -, hmem, hsection⟩ :=
    hstep.of_mem (List.mem_singleton.mpr rfl)
  obtain ⟨hrequest, -, hphases⟩ := hsection.of_fails hmem
  obtain ⟨i, hphase, hphase'⟩ := hphases.resolve_left (hs.proper.kept hs.enabled b before hbefore)
  have ht := (hs.of_step hstep).sound
  have hplace : (key, i) ∈ s.cache.places :=
    hs.sound.place_of_key hbefore (by rw [hrequest]; rfl) (Phase.mem_holds_of_building hphase)
  have hplace' : (key, i) ∈ t.cache.places :=
    ht.place_of_key hafter (by rw [hsame, hrequest]; rfl) (hphase' ▸ List.mem_cons_self)
  refine ⟨i, hplace', ?_, ?_⟩
  · rw [content?_of_step hs hstep, hs.sound.cache.content?_eq hplace,
      hs.sound.empty b before hbefore i hphase]
    rfl
  · intro j call hcall hbuilding
    obtain rfl := ht.eq_of_locks hcall hafter (Phase.locks_of_building hbuilding)
      (by rw [hphase']; rfl)
    obtain rfl := Option.some.inj (hcall.symm.trans hafter)
    exact absurd (hbuilding.symm.trans hphase') nofun

/-! ### Single flight -/

/-- What calls on a cache that keeps values can rely on. -/
structure SingleFlight (s : Shared κ σ ε) : Prop where
  /-- The slots that a call holds are those that the entries of its keys point at. -/
  attached : ∀ {j : Nat} {call : Call κ σ ε} {i : Nat}, s.calls[j]? = some call →
    i ∈ call.phase.holds →
    ∃ key e, call.request.Concerns key ∧ s.cache.entry? key = some e ∧ e.slot = i
  /-- One call at most makes a value for a key. -/
  alone : ∀ {j k : Nat} {call call' : Call κ σ ε} {key : κ}, s.calls[j]? = some call →
    s.calls[k]? = some call' → call.Builds key → call'.Builds key → j = k
  /-- Once a value has landed, and until the key is forgotten, nobody makes a value for it, and
  every call for it that has not had its answer before ends with the value that has landed. -/
  landed : ∀ {b : Nat} {key : κ} {m : Made σ} {t u : Shared κ σ ε} {h : List (Event κ σ ε)},
    Step s [(b, .lands key m)] t → Steps t h u → (∀ j, (j, .forgets key) ∉ h) →
    (∀ j, (j, .builds key) ∉ h) ∧
    ∀ {j : Nat} {call : Call κ σ ε}, u.calls[j]? = some call → call.request.key? = some key →
      ¬ call.Builds key ∧
      ((∀ before answer, t.calls[j]? = some before → before.phase.answer? = some answer →
        answer = .value m) → u.EndsWith j call key m)
  /-- A build that fails leaves the slot of its key empty. Until a value lands, whoever looks into
  it finds none, and builds if it asks for one; and whoever asks for one can go on to do so. -/
  failed : ∀ {b : Nat} {key : κ} {e : ε} {t : Shared κ σ ε}, Step s [(b, .fails key e)] t →
    (∃ e, t.cache.entry? key = some e ∧ (t.cache.slot e.slot).content = none) ∧
    (∀ {h : List (Event κ σ ε)} {u : Shared κ σ ε}, Steps t h u →
      (∀ j m, (j, .lands key m) ∉ h) → ∀ {j : Nat} {call : Call κ σ ε} {found},
      u.calls[j]? = some call → (j, .reads key found) ∈ h →
      found = none ∧ (call.request = .fetch key → (j, .builds key) ∈ h)) ∧
    ∀ {j : Nat} {call : Call κ σ ε}, t.calls[j]? = some call → call.request = .fetch key →
      call.phase.Unread → ∃ u, Steps t [(j, .reads key none), (j, .builds key)] u ∧
        ∃ slot, u.calls[j]? = some { call with phase := .building slot }
  /-- A key is forgotten because it is invalidated, or evicted for another key while no call for
  it holds its slot. -/
  forgotten : ∀ {b : Nat} {key : κ} {t : Shared κ σ ε} {es : List (Event κ σ ε)}, Step s es t →
    (b, .forgets key) ∈ es → ∃ call, s.calls[b]? = some call ∧
      ((∃ matching, call.request = .invalidate matching ∧ matching key = true) ∨
        (∃ key', call.request = .fetch key' ∧ key' ≠ key) ∧
          ∀ {j : Nat} {call : Call κ σ ε}, s.calls[j]? = some call →
            call.request.key? = some key → call.phase.holds = [])

/-- Whoever has had no other answer when a value lands gives that value, or has yet to read it. -/
theorem gives_of_lands (ht : t.Keeps) (ha : Accounts h t) (hm : t.cache.content? key = some m)
    (hcall : t.calls[j]? = some call) (hkey : call.request.key? = some key)
    (hanswer : ∀ answer, call.phase.answer? = some answer → answer = .value m) :
    call.phase.Gives m := by
  rcases call.phase.progress with hunread | ⟨slot, hphase⟩ | ⟨answer, hphase⟩
  · exact Or.inl hunread
  · obtain ⟨key', hrequest, -⟩ := ha.builder j call slot hcall hphase
    rw [hrequest] at hkey
    obtain rfl : key' = key := Option.some.inj hkey
    exact absurd ⟨hrequest, slot, hphase⟩ (ht.not_builds hm hcall)
  · obtain rfl := hanswer answer hphase
    exact Or.inr hphase

/-- However calls overlap on a new cache that keeps values, they rely on it rightly. -/
theorem singleFlight_of_steps {policy : CachePolicy} (hon : policy.enabled = true)
    (hsteps : Steps (start policy) h s) : s.SingleFlight := by
  have hs := keeps_of_steps hon hsteps
  constructor
  case attached =>
    intro j call i hcall hi
    obtain ⟨key, hconcerns, hplace⟩ := hs.sound.placed j call hcall i hi
    obtain ⟨e, hentry, hslot⟩ := hs.sound.cache.exists_entry hplace
    exact ⟨key, e, hconcerns, hentry, hslot⟩
  case alone => exact hs.eq_of_builds
  case landed =>
    intro b key m t u h' hlands hsteps' hforgets
    have ht := hs.of_step hlands
    have hm : t.cache.content? key = some m := by
      rw [content?_of_step hs hlands]
      exact if_pos rfl
    obtain ⟨hm', hbuilds⟩ := kept_of_steps ht hm hsteps' hforgets
    have hu := ht.of_steps hsteps'
    refine ⟨hbuilds, fun {j call} hcall hkey => ⟨hu.not_builds hm' hcall, fun hanswer => ?_⟩⟩
    refine endsWith_of_gives hu hm' hcall hkey ?_
    refine gives_of_steps ht hm hsteps' hforgets hcall hkey fun before hbefore => ?_
    have hsame := hsteps'.request_eq hbefore hcall
    exact gives_of_lands ht (accounts_of_steps (hsteps.tail hlands)) hm hbefore (hsame ▸ hkey)
      fun answer => hanswer before answer hbefore
  case failed =>
    intro b key e t hfails
    have ht := hs.of_step hfails
    obtain ⟨i, hplace, hnone, hunbuilt⟩ := empty_of_fails hs hfails
    refine ⟨?_, ?_, ?_⟩
    · obtain ⟨e', hentry, rfl⟩ := ht.sound.cache.exists_entry hplace
      exact ⟨e', hentry, ht.sound.cache.content?_eq hplace ▸ hnone⟩
    · intro h' u hsteps' hlands j call found
      exact (builds_of_steps ht hnone hsteps' hlands).2 j call found
    · rintro j ⟨_, phase⟩ hcall rfl hunread
      obtain ⟨u, hsteps', hcall', hfree⟩ := steps_to_slot ht hplace hcall rfl hunread hunbuilt
      have hnone' := (builds_of_steps ht hnone hsteps' fun _ _ => List.not_mem_nil).1
      have hu := (ht.of_steps hsteps').sound
      rw [hu.cache.content?_eq (hu.place_of_key hcall' rfl List.mem_cons_self)] at hnone'
      obtain ⟨v, hstep, hcall''⟩ := step_to_build hcall' hfree hnone'
      exact ⟨v, hsteps'.tail hstep, some i, hcall''⟩
  case forgotten =>
    intro b key t es hstep hmem
    obtain ⟨before, _, _, hbefore, -, -, -, hmem, hsection⟩ := hstep.of_mem hmem
    refine ⟨before, hbefore, ?_⟩
    rcases hsection.of_forgets (hs.sound.fits hbefore) hmem with
      hmatching | ⟨key', i, hrequest, hne, hplace, hholders⟩
    · exact Or.inl hmatching
    · refine Or.inr ⟨⟨key', hrequest, hne⟩, fun {j call} hcall hkey => ?_⟩
      apply List.eq_nil_iff_forall_not_mem.mpr
      intro i' hi'
      obtain rfl := hs.sound.cache.slot_eq (hs.sound.place_of_key hcall hkey hi') hplace
      have hcount := List.count_pos_iff.mpr hi'
      have hheld := (hs.sound.fits hcall).holders i'
      omega

/-- One call makes a value, and another one waits for it. -/
def oneWaiting : Shared Nat Nat Unit where
  cache := { policy := ⟨true, 1⟩, entries := [(5, ⟨0, 1⟩)], slots := [⟨none, 2, true⟩], clock := 2,
             misses := 1 }
  calls := [⟨.fetch 5, .building (some 0)⟩, ⟨.fetch 5, .waiting 0 []⟩]

theorem steps_oneWaiting :
    Steps (start ⟨true, 1⟩) [(0, .reads 5 none), (0, .builds 5)] oneWaiting := by
  have begun := (Steps.refl (start ⟨true, 1⟩ : Shared Nat Nat Unit)).tail (.begin _ (.fetch 5))
  have timed := begun.tail (.advance (j := 0) rfl (.tick rfl))
  have waits := timed.tail (.advance (j := 0) rfl (.acquire (Cache.takesSlot_acquire rfl)))
  have builds := waits.tail (.advance (j := 0) rfl (.miss rfl rfl))
  have begun := builds.tail (.begin _ (.fetch 5))
  have timed := begun.tail (.advance (j := 1) rfl (.tick rfl))
  have waits := timed.tail (.advance (j := 1) rfl (.acquire (Cache.takesSlot_acquire rfl)))
  exact waits

theorem singleFlight_of_steps_waiting :
    Steps (start ⟨true, 1⟩) [(0, .reads 5 none), (0, .builds 5)] oneWaiting ∧
      ∃ t, Step oneWaiting [(0, .lands 5 ⟨0, 7⟩)] t ∧
        t.EndsWith 1 ⟨.fetch 5, .waiting 0 []⟩ 5 ⟨0, 7⟩ := by
  have flight := singleFlight_of_steps rfl steps_oneWaiting
  have lands := Step.advance (s := oneWaiting) (j := 0) rfl (.land (v := 7) rfl)
  refine ⟨steps_oneWaiting, _, lands, ?_⟩
  refine ((flight.landed lands (.refl _) fun _ => List.not_mem_nil).2 (j := 1) rfl rfl).2 ?_
  rintro _ _ ⟨⟩ hanswer
  nomatch hanswer

end Shared

end CriteriaQuery

import CriteriaQuery.Proofs.Cache.History

/-!
# Runs of calls

What every state has that a new cache can come to, together with its history. Values are numbered
in the order in which they land, so a number tells which call has made the value. Whatever a slot
holds and whatever a call gives has landed for the key that is asked for, and an error is that of
the call's own build.
-/

namespace CriteriaQuery

variable {κ σ ε : Type}

namespace Shared

/-! ### What is invariant -/

/-- A call for a key is at one slot at a time, makes values for slots if they are kept, and notes
the time if it makes values. -/
structure Proper (s : Shared κ σ ε) : Prop where
  single : ∀ (j : Nat) (call : Call κ σ ε), s.calls[j]? = some call →
    ∀ key, call.request.key? = some key → call.phase.rest = []
  kept : s.cache.policy.enabled = true → ∀ (j : Nat) (call : Call κ σ ε),
    s.calls[j]? = some call → call.phase ≠ .building none
  timed : ∀ (j : Nat) (call : Call κ σ ε) (now : Nat), s.calls[j]? = some call →
    call.phase = .timed now → ∃ key, call.request = .fetch key

theorem proper_start (policy : CachePolicy) : (start policy : Shared κ σ ε).Proper where
  single _ _ h := nomatch h
  kept _ _ _ h := nomatch h
  timed _ _ _ h := nomatch h

/-- A history accounts for a state: it tells which call has made the values that are there. -/
structure Accounts (h : List (Event κ σ ε)) (s : Shared κ σ ε) : Prop where
  begun : ∀ (j : Nat) (x : Happening κ σ ε), (j, x) ∈ h → j < s.calls.length
  builder : ∀ (j : Nat) (call : Call κ σ ε) (slot : Option Nat), s.calls[j]? = some call →
    call.phase = .building slot → ∃ key, call.request = .fetch key ∧ (j, .builds key) ∈ h
  built : ∀ (j : Nat) (key : κ), (j, .builds key) ∈ h → ∃ call, s.calls[j]? = some call ∧
    call.request = .fetch key ∧ ¬ call.phase.Unread
  landed : ∀ (j : Nat) (key : κ) (m : Made σ), (j, .lands key m) ∈ h →
    m.serial < s.cache.made ∧ (j, .builds key) ∈ h
  serials : ∀ (j j' : Nat) (key key' : κ) (m m' : Made σ), (j, .lands key m) ∈ h →
    (j', .lands key' m') ∈ h → m.serial = m'.serial → j = j' ∧ key = key' ∧ m = m'
  contents : ∀ (key : κ) (i : Nat) (m : Made σ), (key, i) ∈ s.cache.places →
    (s.cache.slot i).content = some m → ∃ j, (j, .lands key m) ∈ h
  values : ∀ (j : Nat) (call : Call κ σ ε) (key : κ) (m : Made σ), s.calls[j]? = some call →
    call.request.key? = some key → call.phase.answer? = some (.value m) →
    ∃ j, (j, .lands key m) ∈ h
  errors : ∀ (j : Nat) (call : Call κ σ ε) (key : κ) (e : ε), s.calls[j]? = some call →
    call.request.key? = some key → call.phase.answer? = some (.error e) → (j, .fails key e) ∈ h

theorem accounts_start (policy : CachePolicy) : Accounts [] (start policy : Shared κ σ ε) where
  begun _ _ h := nomatch h
  builder _ _ _ h := nomatch h
  built _ _ h := nomatch h
  landed _ _ _ h := nomatch h
  serials _ _ _ _ _ _ h := nomatch h
  contents _ _ _ h := nomatch h
  values _ _ _ _ h := nomatch h
  errors _ _ _ _ h := nomatch h

end Shared

/-! ### Steps, seen from one call -/

theorem Cache.made_count (c : Cache κ σ) (found : Bool) : (c.count found).made = c.made := by
  cases found <;> rfl

variable [DecidableEq κ]

theorem Cache.Section.made_le {request : Request κ} {phase phase' : Phase σ ε} {c c' : Cache κ σ}
    {hs : List (Happening κ σ ε)} {late : List Nat} (h : Fits c request phase)
    (hsection : Section late request phase c hs phase' c') : c.made ≤ c'.made := by
  cases hsection with
  | acquire htakes => exact Nat.le_of_eq (acquires_of_takesSlot h.sound htakes).made.symm
  | find _ hfind => exact Nat.le_of_eq (acquires_find h.sound hfind).made.symm
  | sweep _ hsweep => exact Nat.le_of_eq (sweeps_of_idlePast h.sound hsweep).made.symm
  | hit hlock =>
      obtain ⟨-, rfl⟩ := lock?_eq_some_iff.mp hlock
      exact Nat.le_of_eq (by rw [made_count]; rfl)
  | miss hlock =>
      obtain ⟨-, rfl⟩ := lock?_eq_some_iff.mp hlock
      exact Nat.le_of_eq (by rw [made_count]; rfl)
  | look hlock =>
      obtain ⟨-, rfl⟩ := lock?_eq_some_iff.mp hlock
      exact Nat.le_refl _
  | count => exact Nat.le_of_eq (made_count c _).symm
  | empty hlock =>
      obtain ⟨-, rfl⟩ := lock?_eq_some_iff.mp hlock
      exact Nat.le_refl _
  | land hmake =>
      obtain ⟨-, rfl⟩ := Prod.mk.inj hmake
      exact Nat.le_succ _
  | landUnkept hmake =>
      obtain ⟨-, rfl⟩ := Prod.mk.inj hmake
      exact Nat.le_succ _
  | _ => exact Nat.le_refl _

namespace Shared

variable {s t : Shared κ σ ε} {es : List (Event κ σ ε)} {k : Nat} {call : Call κ σ ε}

/-- A call is as it was, has just begun, or has moved on. -/
theorem Step.call_cases (hstep : Step s es t) (hcall : t.calls[k]? = some call) :
    s.calls[k]? = some call ∨
      (s.calls.length ≤ k ∧ call.phase = .begun) ∨
      ∃ before hs, s.calls[k]? = some before ∧ before.request = call.request ∧
        es = hs.map (k, ·) ∧
        Cache.Section s.late call.request before.phase s.cache hs call.phase t.cache := by
  cases hstep with
  | begin request =>
      rw [Shared.begin, List.getElem?_append] at hcall
      split at hcall
      · exact Or.inl hcall
      · next hlength =>
          obtain ⟨-, rfl⟩ : k - s.calls.length = 0 ∧ { request } = call := by
            simpa [List.getElem?_singleton] using hcall
          exact Or.inr (Or.inl ⟨Nat.le_of_not_lt hlength, rfl⟩)
  | advance hmoved hsection =>
      rcases getElem?_set_cases hcall with ⟨rfl, rfl⟩ | ⟨-, hcall⟩
      · exact Or.inr (Or.inr ⟨_, _, hmoved, rfl, rfl, hsection⟩)
      · exact Or.inl hcall

/-- A call stays as it is, or moves on. -/
theorem Step.next_cases (hstep : Step s es t) (hcall : s.calls[k]? = some call) :
    t.calls[k]? = some call ∨ ∃ phase hs, t.calls[k]? = some { call with phase } ∧
      es = hs.map (k, ·) ∧
        Cache.Section s.late call.request call.phase s.cache hs phase t.cache := by
  have hlength : k < s.calls.length := (List.getElem?_eq_some_iff.mp hcall).1
  cases hstep with
  | begin request => exact Or.inl (by rw [Shared.begin, List.getElem?_append_left hlength, hcall])
  | @advance j _ hs phase c hmoved hsection =>
      by_cases hjk : j = k
      · subst hjk
        obtain rfl := Option.some.inj (hmoved.symm.trans hcall)
        exact Or.inr ⟨phase, hs, by rw [List.getElem?_set_self hlength], rfl, hsection⟩
      · exact Or.inl (by rw [List.getElem?_set_ne hjk, hcall])

/-- What happens belongs to one call, which moves on. -/
theorem Step.of_mem (hstep : Step s es t) {x : Happening κ σ ε} (hmem : (k, x) ∈ es) :
    ∃ before after hs, s.calls[k]? = some before ∧ t.calls[k]? = some after ∧
      after.request = before.request ∧ es = hs.map (k, ·) ∧ x ∈ hs ∧
      Cache.Section s.late before.request before.phase s.cache hs after.phase t.cache := by
  cases hstep with
  | begin => nomatch hmem
  | @advance j call hs phase c hcall hsection =>
      obtain ⟨y, hy, heq⟩ := List.mem_map.mp hmem
      obtain ⟨rfl, rfl⟩ := Prod.mk.inj heq
      have hlength : j < s.calls.length := (List.getElem?_eq_some_iff.mp hcall).1
      exact ⟨call, _, hs, hcall, List.getElem?_set_self hlength, rfl, rfl, hy, hsection⟩

/-- Calls stay, and do not change what they ask. -/
theorem Step.exists_next (hstep : Step s es t) (hcall : s.calls[k]? = some call) :
    ∃ phase, t.calls[k]? = some { call with phase } := by
  rcases hstep.next_cases hcall with hsame | ⟨phase, _, hmoved, -⟩
  · exact ⟨call.phase, hsame⟩
  · exact ⟨phase, hmoved⟩

theorem Step.request_eq (hstep : Step s es t) {after : Call κ σ ε}
    (hcall : s.calls[k]? = some call) (hafter : t.calls[k]? = some after) :
    after.request = call.request := by
  obtain ⟨phase, hnext⟩ := hstep.exists_next hcall
  rw [Option.some.inj (hafter.symm.trans hnext)]

theorem Step.length_le (hstep : Step s es t) : s.calls.length ≤ t.calls.length := by
  cases hstep with
  | begin => simp [Shared.begin]
  | advance => simp

theorem Step.made_le (hs : s.Sound) (hstep : Step s es t) : s.cache.made ≤ t.cache.made := by
  cases hstep with
  | begin => exact Nat.le_refl _
  | advance hcall hsection => exact hsection.made_le (hs.fits hcall)

theorem Steps.exists_next (hsteps : Steps s es t) (hcall : s.calls[k]? = some call) :
    ∃ phase, t.calls[k]? = some { call with phase } := by
  induction hsteps with
  | refl => exact ⟨call.phase, hcall⟩
  | tail _ hstep ih =>
      obtain ⟨_, hbetween⟩ := ih
      obtain ⟨phase, hnext⟩ := hstep.exists_next hbetween
      exact ⟨phase, hnext⟩

theorem Steps.request_eq (hsteps : Steps s es t) {after : Call κ σ ε}
    (hcall : s.calls[k]? = some call) (hafter : t.calls[k]? = some after) :
    after.request = call.request := by
  obtain ⟨phase, hnext⟩ := hsteps.exists_next hcall
  rw [Option.some.inj (hafter.symm.trans hnext)]

theorem Steps.length_le (hsteps : Steps s es t) : s.calls.length ≤ t.calls.length := by
  induction hsteps with
  | refl => exact Nat.le_refl _
  | tail _ hstep ih => exact Nat.le_trans ih hstep.length_le

theorem Steps.exists_call {x : Happening κ σ ε} (hsteps : Steps s es t) (hmem : (k, x) ∈ es) :
    ∃ call, t.calls[k]? = some call := by
  induction hsteps with
  | refl => nomatch hmem
  | tail _ hstep ih =>
      rcases List.mem_append.mp hmem with hold | hnew
      · obtain ⟨call, hcall⟩ := ih hold
        obtain ⟨_, hnext⟩ := hstep.exists_next hcall
        exact ⟨_, hnext⟩
      · obtain ⟨_, after, _, -, hafter, -⟩ := hstep.of_mem hnew
        exact ⟨after, hafter⟩

/-- A slot that a call holds is the place of the same key afterwards. -/
theorem Sound.place_of_held (hs : s.Sound) (hstep : Step s es t) (hcall : s.calls[k]? = some call)
    {i : Nat} (hi : i ∈ call.phase.holds) {key : κ} (hplace : (key, i) ∈ t.cache.places) :
    (key, i) ∈ s.cache.places := by
  obtain ⟨key', -, hplace'⟩ := hs.placed k call hcall i hi
  have hcount := List.count_pos_iff.mpr hi
  have hholders := (hs.fits hcall).holders i
  have hkept : (key', i) ∈ t.cache.places := by
    cases hstep with
    | begin => exact hplace'
    | advance hmoved hsection =>
        exact (hsection.moves (hs.fits hmoved)).busy _ hplace' (by dsimp only; omega)
  obtain rfl := (hs.of_step hstep).cache.key_eq hkept hplace
  exact hplace'

/-! ### What steps keep -/

theorem Proper.of_step (h : s.Proper) (hs : s.Sound) (hstep : Step s es t) : t.Proper where
  single j call hcall key hkey := by
    rcases hstep.call_cases hcall with
      hcall | ⟨-, hphase⟩ | ⟨before, _, hbefore, hrequest, -, hsection⟩
    · exact h.single j call hcall key hkey
    · rw [hphase]
      rfl
    · exact hsection.rest_eq_nil hkey (h.single j before hbefore key (hrequest ▸ hkey))
  kept hon j call hcall := by
    rw [policy_of_step hs hstep] at hon
    rcases hstep.call_cases hcall with hcall | ⟨-, hphase⟩ | ⟨_, _, -, -, -, hsection⟩
    · exact h.kept hon j call hcall
    · rw [hphase]
      nofun
    · exact hsection.ne_building_none hon
  timed j call now hcall hphase := by
    rcases hstep.call_cases hcall with hcall | ⟨-, hbegun⟩ | ⟨_, _, -, -, -, hsection⟩
    · exact h.timed j call now hcall hphase
    · exact absurd (hphase.symm.trans hbegun) nofun
    · exact hsection.fetch_of_timed hphase

theorem Proper.of_steps (h : s.Proper) (hs : s.Sound) (hsteps : Steps s es t) :
    t.Proper := by
  induction hsteps with
  | refl => exact h
  | tail hsteps hstep ih => exact ih.of_step (hs.of_steps hsteps) hstep

theorem proper_of_steps {policy : CachePolicy} (hsteps : Steps (start policy) es s) : s.Proper :=
  (proper_start policy).of_steps (sound_start policy) hsteps

namespace Accounts

variable {h : List (Event κ σ ε)}

theorem begun_of_step (ha : Accounts h s) (hstep : Step s es t) (j : Nat) (x : Happening κ σ ε)
    (hmem : (j, x) ∈ h ++ es) : j < t.calls.length := by
  rcases List.mem_append.mp hmem with hold | hnew
  · exact Nat.lt_of_lt_of_le (ha.begun j x hold) hstep.length_le
  · obtain ⟨_, _, _, -, hafter, -⟩ := hstep.of_mem hnew
    exact (List.getElem?_eq_some_iff.mp hafter).1

theorem builder_of_step (ha : Accounts h s) (hstep : Step s es t) (j : Nat) (call : Call κ σ ε)
    (slot : Option Nat) (hcall : t.calls[j]? = some call) (hphase : call.phase = .building slot) :
    ∃ key, call.request = .fetch key ∧ (j, .builds key) ∈ h ++ es := by
  rcases hstep.call_cases hcall with hcall | ⟨-, hbegun⟩ | ⟨before, hs, -, -, rfl, hsection⟩
  · obtain ⟨key, hrequest, hmem⟩ := ha.builder j call slot hcall hphase
    exact ⟨key, hrequest, List.mem_append_left _ hmem⟩
  · exact absurd (hphase.symm.trans hbegun) nofun
  · obtain ⟨key, hrequest, hmem⟩ := hsection.builds_of_building hphase
    exact ⟨key, hrequest, List.mem_append_right _ (List.mem_map_of_mem hmem)⟩

theorem built_of_step (ha : Accounts h s) (hp : s.Proper) (hstep : Step s es t) (j : Nat) (key : κ)
    (hmem : (j, .builds key) ∈ h ++ es) :
    ∃ call, t.calls[j]? = some call ∧ call.request = .fetch key ∧ ¬ call.phase.Unread := by
  rcases List.mem_append.mp hmem with hold | hnew
  · obtain ⟨call, hcall, hrequest, hread⟩ := ha.built j key hold
    rcases hstep.next_cases hcall with hcall' | ⟨phase, hs, hcall', -, hsection⟩
    · exact ⟨call, hcall', hrequest, hread⟩
    · have hrest := hp.single j call hcall key (by rw [hrequest]; rfl)
      exact ⟨_, hcall', hrequest, hsection.not_unread hrest hread⟩
  · obtain ⟨before, after, hs, -, hafter, hsame, -, hmem, hsection⟩ := hstep.of_mem hnew
    obtain ⟨hrequest, ⟨slot, hphase⟩, -⟩ := hsection.of_builds hmem
    exact ⟨after, hafter, hsame.trans hrequest, hphase ▸ id⟩

theorem landed_of_step (ha : Accounts h s) (hs : s.Sound) (hstep : Step s es t) (j : Nat) (key : κ)
    (m : Made σ) (hmem : (j, .lands key m) ∈ h ++ es) :
    m.serial < t.cache.made ∧ (j, .builds key) ∈ h ++ es := by
  rcases List.mem_append.mp hmem with hold | hnew
  · obtain ⟨hserial, hbuilds⟩ := ha.landed j key m hold
    exact ⟨Nat.lt_of_lt_of_le hserial (hstep.made_le hs), List.mem_append_left _ hbuilds⟩
  · obtain ⟨before, after, hs, hbefore, -, -, -, hmem, hsection⟩ := hstep.of_mem hnew
    obtain ⟨hrequest, ⟨slot, hphase⟩, -, hserial, hmade, -⟩ := hsection.of_lands hmem
    obtain ⟨key', hrequest', hbuilds⟩ := ha.builder j before slot hbefore hphase
    obtain rfl : key' = key := Request.fetch.inj (hrequest'.symm.trans hrequest)
    exact ⟨by omega, List.mem_append_left _ hbuilds⟩

theorem serials_of_step (ha : Accounts h s) (hstep : Step s es t) (j j' : Nat) (key key' : κ)
    (m m' : Made σ) (hmem : (j, .lands key m) ∈ h ++ es) (hmem' : (j', .lands key' m') ∈ h ++ es)
    (hserial : m.serial = m'.serial) : j = j' ∧ key = key' ∧ m = m' := by
  have hnew : ∀ {j key m}, (j, .lands key m) ∈ es →
      m.serial = s.cache.made ∧ es = [(j, .lands key m)] := by
    intro j key m hmem
    obtain ⟨_, _, hs, -, -, -, heq, hmem, hsection⟩ := hstep.of_mem hmem
    obtain ⟨-, -, rfl, hserial, -⟩ := hsection.of_lands hmem
    exact ⟨hserial, heq⟩
  rcases List.mem_append.mp hmem with hold | hlands <;>
    rcases List.mem_append.mp hmem' with hold' | hlands'
  · exact ha.serials j j' key key' m m' hold hold' hserial
  · have := (ha.landed j key m hold).1
    have := (hnew hlands').1
    omega
  · have := (ha.landed j' key' m' hold').1
    have := (hnew hlands).1
    omega
  · rw [(hnew hlands).2, List.mem_singleton] at hlands'
    simpa [eq_comm] using hlands'

theorem contents_of_step (ha : Accounts h s) (hs : s.Sound) (hstep : Step s es t) (key : κ)
    (i : Nat) (m : Made σ) (hplace : (key, i) ∈ t.cache.places)
    (hm : (t.cache.slot i).content = some m) : ∃ j, (j, .lands key m) ∈ h ++ es := by
  cases hstep with
  | begin =>
      rw [List.append_nil]
      exact ha.contents key i m hplace hm
  | @advance j call hs' phase c hcall hsection =>
      have hmoves := hsection.moves (hs.fits hcall)
      rcases hmoves.content i m hm with hold | ⟨hphase, key', hrequest, hmem⟩
      · rcases hmoves.of_mem _ hplace with hplace | ⟨-, hnone⟩
        · obtain ⟨j', hmem⟩ := ha.contents key i m hplace hold
          exact ⟨j', List.mem_append_left _ hmem⟩
        · exact absurd (hold.symm.trans hnone) nofun
      · have hheld := Phase.mem_holds_of_building hphase
        have hplace' := hs.place_of_key hcall (by rw [hrequest]; rfl) hheld
        have hsame := hs.place_of_held (.advance hcall hsection) hcall hheld hplace
        obtain rfl := hs.cache.key_eq hplace' hsame
        exact ⟨j, List.mem_append_right _ (List.mem_map_of_mem hmem)⟩

theorem values_of_step (ha : Accounts h s) (hs : s.Sound) (hstep : Step s es t) (j : Nat)
    (call : Call κ σ ε) (key : κ) (m : Made σ) (hcall : t.calls[j]? = some call)
    (hkey : call.request.key? = some key) (hvalue : call.phase.answer? = some (.value m)) :
    ∃ j, (j, .lands key m) ∈ h ++ es := by
  have hleft : (∃ j, (j, .lands key m) ∈ h) → ∃ j, (j, .lands key m) ∈ h ++ es :=
    fun ⟨j, hmem⟩ => ⟨j, List.mem_append_left _ hmem⟩
  rcases hstep.call_cases hcall with
    hcall | ⟨-, hbegun⟩ | ⟨before, hs', hbefore, hrequest, rfl, hsection⟩
  · exact hleft (ha.values j call key m hcall hkey hvalue)
  · rw [hbegun] at hvalue
    nomatch hvalue
  · rcases hsection.of_value hvalue with hvalue | ⟨key', hkey', hlands | hreads⟩
    · exact hleft (ha.values j before key m hbefore (hrequest ▸ hkey) hvalue)
    · obtain rfl := Option.some.inj (hkey'.symm.trans hkey)
      exact ⟨j, List.mem_append_right _ (List.mem_map_of_mem hlands)⟩
    · obtain rfl := Option.some.inj (hkey'.symm.trans hkey)
      obtain ⟨-, ⟨i, hphase, -, hm⟩, -⟩ := hsection.of_reads hreads
      have hplace := hs.place_of_key hbefore (hrequest ▸ hkey) (Phase.mem_holds_of_waiting hphase)
      exact hleft (ha.contents _ i m hplace hm.symm)

theorem errors_of_step (ha : Accounts h s) (hstep : Step s es t) (j : Nat)
    (call : Call κ σ ε) (key : κ) (e : ε) (hcall : t.calls[j]? = some call)
    (hkey : call.request.key? = some key) (herror : call.phase.answer? = some (.error e)) :
    (j, .fails key e) ∈ h ++ es := by
  rcases hstep.call_cases hcall with
    hcall | ⟨-, hbegun⟩ | ⟨before, hs, hbefore, hrequest, rfl, hsection⟩
  · exact List.mem_append_left _ (ha.errors j call key e hcall hkey herror)
  · rw [hbegun] at herror
    nomatch herror
  · rcases hsection.of_error herror with herror | ⟨key', hrequest', hfails⟩
    · exact List.mem_append_left _ (ha.errors j before key e hbefore (hrequest ▸ hkey) herror)
    · rw [hrequest'] at hkey
      obtain rfl := Option.some.inj hkey
      exact List.mem_append_right _ (List.mem_map_of_mem hfails)

theorem of_step (ha : Accounts h s) (hs : s.Sound) (hp : s.Proper) (hstep : Step s es t) :
    Accounts (h ++ es) t where
  begun := ha.begun_of_step hstep
  builder := ha.builder_of_step hstep
  built := ha.built_of_step hp hstep
  landed := ha.landed_of_step hs hstep
  serials := ha.serials_of_step hstep
  contents := ha.contents_of_step hs hstep
  values := ha.values_of_step hs hstep
  errors := ha.errors_of_step hstep

end Accounts

/-- The history of a new cache accounts for what has become of it. -/
theorem accounts_of_steps {policy : CachePolicy} {h : List (Event κ σ ε)}
    (hsteps : Steps (start policy) h s) : Accounts h s := by
  induction hsteps with
  | refl => exact accounts_start policy
  | tail hsteps hstep ih => exact ih.of_step (sound_of_steps hsteps) (proper_of_steps hsteps) hstep

end Shared

end CriteriaQuery

import CriteriaQuery.Proofs.Cache.Runs

/-!
# Invalidation

A call that begins after an invalidation has ended gives no value whose build started before the
invalidation did, whatever else went on meanwhile.

## Implementation notes

The builds that had started when the invalidation began are the old ones. A slot is clean when it
holds no value of an old build and no old build is at work for it. Clean slots stay clean, since an
old build cannot start again, and new slots are clean. The invalidation goes ahead through the
slots of matching keys that were in use when it swept the entries; whatever place of a matching key
is not ahead of it is clean.
-/

namespace CriteriaQuery

variable {κ σ ε : Type}

/-- The slots that an invalidation has still to empty. -/
def Phase.ahead : Phase σ ε → List Nat
  | .waiting i rest => i :: rest
  | phase => phase.rest

@[simp] theorem Phase.ahead_next (answer : Answer σ ε) (is : List Nat) :
    (next answer is).ahead = is := by
  cases is <;> rfl

namespace Shared

variable {s : Shared κ σ ε} {h es : List (Event κ σ ε)} {old : Nat → Prop} {m : Made σ}
  {matching : κ → Bool} {v : Nat}

/-- Whether no old build has made a value. -/
def Recent (old : Nat → Prop) (h : List (Event κ σ ε)) (m : Made σ) : Prop :=
  ∀ b key, (b, .lands key m) ∈ h → ¬ old b

/-- A slot holds no value of an old build, and no old build is at work for it. -/
structure Clean (old : Nat → Prop) (h : List (Event κ σ ε)) (s : Shared κ σ ε) (i : Nat) :
    Prop where
  content : ∀ m, (s.cache.slot i).content = some m → Recent old h m
  building : ∀ (b : Nat) (call : Call κ σ ε), s.calls[b]? = some call →
    call.phase = .building (some i) → ¬ old b

/-- How far an invalidation is: it has yet to begin its work, or the places of matching keys that
are not ahead of it are clean. -/
def Sweeping (old : Nat → Prop) (matching : κ → Bool) (v : Nat) (h : List (Event κ σ ε))
    (s : Shared κ σ ε) : Prop :=
  ∃ phase, s.calls[v]? = some ⟨.invalidate matching, phase⟩ ∧
    (phase = .begun ∨ ∀ key i, (key, i) ∈ s.cache.places → matching key = true →
      i ∈ phase.ahead ∨ Clean old h s i)

/-- Whether the places of matching keys are clean, and so are the values that matching calls give
which begin from some number on. -/
structure Purged (old : Nat → Prop) (matching : κ → Bool) (n : Nat) (h : List (Event κ σ ε))
    (s : Shared κ σ ε) : Prop where
  places : ∀ key i, (key, i) ∈ s.cache.places → matching key = true → Clean old h s i
  values : ∀ (j : Nat) (call : Call κ σ ε) (key : κ) (m : Made σ), n ≤ j →
    s.calls[j]? = some call → call.request.key? = some key → matching key = true →
    call.phase.answer? = some (.value m) → Recent old h m

/-- Nothing that happens later makes a value older. -/
theorem Recent.append (ha : Accounts (h ++ es) s) (hm : ∃ b key, (b, .lands key m) ∈ h)
    (hrecent : Recent old h m) : Recent old (h ++ es) m := by
  intro b key hmem
  obtain ⟨b', key', hmem'⟩ := hm
  obtain ⟨rfl, -⟩ := ha.serials b b' key key' m m hmem (List.mem_append_left _ hmem') rfl
  exact hrecent b key' hmem'

/-- When an invalidation has ended, nothing is ahead of it. -/
theorem Sweeping.purged (hsweeping : Sweeping old matching v h s) {answer : Answer σ ε}
    (hended : s.calls[v]? = some ⟨.invalidate matching, .ended answer⟩) :
    Purged old matching s.calls.length h s := by
  obtain ⟨phase, hcall, hphase⟩ := hsweeping
  obtain rfl : phase = .ended answer :=
    congrArg Call.phase (Option.some.inj (hcall.symm.trans hended))
  constructor
  · intro key i hplace hkey
    exact ((hphase.resolve_left nofun) key i hplace hkey).resolve_left List.not_mem_nil
  · intro j call key m hj hcall
    exact absurd (List.getElem?_eq_some_iff.mp hcall).1 (Nat.not_lt.mpr hj)

end Shared

variable [DecidableEq κ]

namespace Cache

variable {c c' : Cache κ σ} {request : Request κ} {phase phase' : Phase σ ε}
  {hs : List (Happening κ σ ε)} {matching : κ → Bool} {i : Nat} {late : List Nat}

/-- An invalidation starts with all places of matching keys ahead of it, and what is no longer
ahead was free and is empty. -/
theorem Section.of_invalidate (h : Fits c (.invalidate matching) phase)
    (hsection : Section late (.invalidate matching) phase c hs phase' c') :
    (∀ place ∈ c'.places, matching place.1 = true → place.2 ∈ phase'.ahead) ∨
      phase ≠ .begun ∧ ∀ i ∈ phase.ahead, i ∈ phase'.ahead ∨
        (c.slot i).locked = false ∧ (c'.slot i).content = none := by
  cases hsection with
  | sweep _ hsweep horder =>
      have hsweeps := (sweeps_of_idlePast h.sound hsweep).perm horder
      refine Or.inl fun place hplace hkey => ?_
      rw [Phase.ahead_next, hsweeps.mem_busy]
      exact ⟨place.1, hplace, hkey⟩
  | @empty _ j rest _ _ hlock =>
      obtain ⟨hfree, rfl⟩ := lock?_eq_some_iff.mp hlock
      refine Or.inr ⟨nofun, fun i hi => ?_⟩
      rcases List.mem_cons.mp hi with rfl | hi
      · have hrange : i < (c.lock i).slots.length := by
          rw [length_slots_lock]
          exact h.inRange List.mem_cons_self
        exact Or.inr ⟨hfree, by rw [content_fill hrange, if_pos rfl]⟩
      · exact Or.inl hi
  | release => exact Or.inr ⟨nofun, nofun⟩
  | count => exact Or.inr ⟨nofun, nofun⟩
  | unlock => exact Or.inr ⟨nofun, fun i hi => Or.inl hi⟩
  | @drop _ _ rest =>
      refine Or.inr ⟨nofun, fun i hi => Or.inl ?_⟩
      rw [Phase.ahead_next]
      exact hi

/-- A call that starts to make a value has waited for the slot. -/
theorem Section.of_building (hsection : Section late request phase c hs phase' c')
    (hphase : phase' = .building (some i)) : phase.Unread ∧ i ∈ phase.holds := by
  cases hsection with
  | miss =>
      obtain rfl := Option.some.inj (Phase.building.inj hphase)
      exact ⟨trivial, List.mem_cons_self⟩
  | sweep => exact absurd hphase (Phase.next_ne_building _ _ _)
  | drop => exact absurd hphase (Phase.next_ne_building _ _ _)
  | _ => nomatch hphase

end Cache

namespace Shared

variable {s t : Shared κ σ ε} {h es : List (Event κ σ ε)} {old : Nat → Prop} {key : κ}
  {matching : κ → Bool} {i v : Nat} {m : Made σ}

/-! ### Clean slots -/

/-- What a step needs to know of the history before it. -/
structure Since (old : Nat → Prop) (h : List (Event κ σ ε)) (s : Shared κ σ ε) : Prop where
  run : ∃ policy, Steps (start policy) h s
  started : ∀ b, old b → ∃ key, (b, .builds key) ∈ h

theorem Since.of_step (hsince : Since old h s) (hstep : Step s es t) : Since old (h ++ es) t where
  run := hsince.run.imp fun _ hsteps => hsteps.tail hstep
  started b hb := (hsince.started b hb).imp fun _ hmem => List.mem_append_left _ hmem

theorem Since.sound (hsince : Since old h s) : s.Sound :=
  let ⟨_, hsteps⟩ := hsince.run
  sound_of_steps hsteps

theorem Since.accounts (hsince : Since old h s) : Accounts h s :=
  let ⟨_, hsteps⟩ := hsince.run
  accounts_of_steps hsteps

/-- An old build does not start again. -/
theorem Since.not_unread (hsince : Since old h s) {b : Nat} {call : Call κ σ ε} (hb : old b)
    (hcall : s.calls[b]? = some call) : ¬ call.phase.Unread := by
  obtain ⟨key, hmem⟩ := hsince.started b hb
  obtain ⟨call', hcall', -, hread⟩ := hsince.accounts.built b key hmem
  obtain rfl := Option.some.inj (hcall.symm.trans hcall')
  exact hread

/-- Places stay clean, and new places are clean. -/
theorem Clean.of_step (hsince : Since old h s) (hstep : Step s es t)
    (hplace : (key, i) ∈ t.cache.places) (hclean : (key, i) ∈ s.cache.places → Clean old h s i) :
    Clean old (h ++ es) t i := by
  have hs := hsince.sound
  have ha := hsince.accounts
  have ha' := (hsince.of_step hstep).accounts
  constructor
  · intro m hm
    cases hstep with
    | begin =>
        rw [List.append_nil]
        exact (hclean hplace).content m hm
    | @advance j call hs' phase c hcall hsection =>
        have hmoves := hsection.moves (hs.fits hcall)
        rcases hmoves.content i m hm with hold | ⟨hphase, key', -, hmem⟩
        · have hplace' := (hmoves.of_mem _ hplace).resolve_right
            fun hnew => absurd (hold.symm.trans hnew.2) nofun
          obtain ⟨b, hmem⟩ := ha.contents key i m hplace' hold
          exact ((hclean hplace').content m hold).append ha' ⟨b, key, hmem⟩
        · have hheld := Phase.mem_holds_of_building hphase
          have hplace' := hs.place_of_held (.advance hcall hsection) hcall hheld hplace
          intro b key'' hmem''
          obtain ⟨rfl, -⟩ := ha'.serials b j key'' key' m m hmem''
            (List.mem_append_right _ (List.mem_map_of_mem hmem)) rfl
          exact (hclean hplace').building b call hcall hphase
  · intro b call hcall hphase
    rcases hstep.call_cases hcall with
      hcall | ⟨-, hbegun⟩ | ⟨before, _, hbefore, -, -, hsection⟩
    · have hheld := Phase.mem_holds_of_building hphase
      exact (hclean (hs.place_of_held hstep hcall hheld hplace)).building b call hcall hphase
    · exact absurd (hphase.symm.trans hbegun) nofun
    · exact fun hb => hsince.not_unread hb hbefore (hsection.of_building hphase).1

/-- A slot that an invalidation has emptied is clean. -/
theorem clean_of_empty (hs : s.Sound) (hstep : Step s es t) {hs' : List (Happening κ σ ε)}
    {after : Call κ σ ε} (hes : es = hs'.map (v, ·)) (hafter : t.calls[v]? = some after)
    (hrequest : after.request = .invalidate matching) (hfree : (s.cache.slot i).locked = false)
    (hnone : (t.cache.slot i).content = none) : Clean old h t i := by
  constructor
  · intro m hm
    exact absurd (hm.symm.trans hnone) nofun
  · intro b call hcall hphase
    rcases hstep.call_cases hcall with
      hcall | ⟨-, hbegun⟩ | ⟨before, hs'', hbefore, -, heq, hsection⟩
    · have hlocked := (hs.fits hcall).locked i (Phase.locks_of_building hphase)
      exact absurd (hfree.symm.trans hlocked) nofun
    · exact absurd (hphase.symm.trans hbegun) nofun
    · obtain ⟨key, hfetch, hmem⟩ := hsection.builds_of_building hphase
      have hmem' : (b, Happening.builds key) ∈ hs'.map (v, ·) :=
        hes ▸ heq ▸ List.mem_map_of_mem hmem
      obtain ⟨_, -, hpair⟩ := List.mem_map.mp hmem'
      obtain rfl : v = b := congrArg Prod.fst hpair
      obtain rfl := Option.some.inj (hcall.symm.trans hafter)
      exact absurd (hfetch.symm.trans hrequest) nofun

/-! ### The invalidation -/

theorem Sweeping.of_step (hsince : Since old h s) (hstep : Step s es t)
    (hsweeping : Sweeping old matching v h s) : Sweeping old matching v (h ++ es) t := by
  obtain ⟨phase, hcall, hphase⟩ := hsweeping
  rcases hstep.next_cases hcall with hsame | ⟨phase', hs', hmoved, hes, hsection⟩
  · refine ⟨phase, hsame, hphase.imp_right fun hplaces key i hplace hkey => ?_⟩
    by_cases hahead : i ∈ phase.ahead
    · exact Or.inl hahead
    · exact Or.inr (Clean.of_step hsince hstep hplace
        fun hplace' => (hplaces key i hplace' hkey).resolve_left hahead)
  · refine ⟨phase', hmoved, Or.inr fun key i hplace hkey => ?_⟩
    obtain hall | ⟨hbegun, hempty⟩ := hsection.of_invalidate (hsince.sound.fits hcall)
    · exact Or.inl (hall _ hplace hkey)
    · have hplaces := hphase.resolve_left hbegun
      by_cases hahead : i ∈ phase.ahead
      · exact (hempty i hahead).imp_right fun ⟨hfree, hnone⟩ =>
          clean_of_empty hsince.sound hstep hes hmoved rfl hfree hnone
      · exact Or.inr (Clean.of_step hsince hstep hplace
          fun hplace' => (hplaces key i hplace' hkey).resolve_left hahead)

/-! ### After the invalidation -/

theorem Purged.of_step (hsince : Since old h s) {n : Nat} (hn : ∀ b, old b → b < n)
    (hstep : Step s es t) (hpurged : Purged old matching n h s) :
    Purged old matching n (h ++ es) t := by
  have ha := hsince.accounts
  have ha' := (hsince.of_step hstep).accounts
  constructor
  · exact fun key i hplace hkey =>
      Clean.of_step hsince hstep hplace fun hplace' => hpurged.places key i hplace' hkey
  · intro j call key m hj hcall hkey hmatching hvalue
    have hbefore : ∀ before : Call κ σ ε, s.calls[j]? = some before →
        before.request = call.request → before.phase.answer? = some (.value m) →
        Recent old (h ++ es) m := by
      intro before hbefore hrequest hvalue
      have hkey' := hrequest ▸ hkey
      obtain ⟨b, hmem⟩ := ha.values j before key m hbefore hkey' hvalue
      have hrecent := hpurged.values j before key m hj hbefore hkey' hmatching hvalue
      exact hrecent.append ha' ⟨b, key, hmem⟩
    rcases hstep.call_cases hcall with
      hcall | ⟨-, hbegun⟩ | ⟨before, hs, hcall', hrequest, rfl, hsection⟩
    · exact hbefore call hcall rfl hvalue
    · rw [hbegun] at hvalue
      nomatch hvalue
    · rcases hsection.of_value hvalue with hvalue | ⟨key', hkey', hlands | hreads⟩
      · exact hbefore before hcall' hrequest hvalue
      · intro b key'' hmem
        obtain ⟨rfl, -⟩ := ha'.serials b j key'' key' m m hmem
          (List.mem_append_right _ (List.mem_map_of_mem hlands)) rfl
        exact fun hb => absurd (hn b hb) (Nat.not_lt.mpr hj)
      · obtain rfl := Option.some.inj (hkey'.symm.trans hkey)
        obtain ⟨-, ⟨i, hphase, -, hm⟩, -⟩ := hsection.of_reads hreads
        have hplace := hsince.sound.place_of_key hcall' (hrequest ▸ hkey)
          (Phase.mem_holds_of_waiting hphase)
        obtain ⟨b, hmem⟩ := ha.contents _ i m hplace hm.symm
        exact ((hpurged.places _ i hplace hmatching).content m hm.symm).append ha' ⟨b, _, hmem⟩

/-! ### Runs -/

/-- What steps keep that follow a history, runs keep. -/
theorem Since.of_steps {I : List (Event κ σ ε) → Shared κ σ ε → Prop}
    (hI : ∀ {h es : List (Event κ σ ε)} {s t : Shared κ σ ε}, Since old h s → Step s es t →
      I h s → I (h ++ es) t)
    (hsince : Since old h s) (hi : I h s) {h' : List (Event κ σ ε)} (hsteps : Steps s h' t) :
    Since old (h ++ h') t ∧ I (h ++ h') t := by
  induction hsteps with
  | refl =>
      rw [List.append_nil]
      exact ⟨hsince, hi⟩
  | tail _ hstep ih =>
      rw [← List.append_assoc]
      exact ⟨ih.1.of_step hstep, hI ih.1 hstep ih.2⟩

/-- The value that a call gives which begins after an invalidation of its key has ended was made by
a build that started after the invalidation had begun. -/
theorem builds_since_invalidation {policy : CachePolicy} {h₀ h₁ h₂ : List (Event κ σ ε)}
    {s₀ s₁ s₂ : Shared κ σ ε} {answer : Answer σ ε} (hbefore : Steps (start policy) h₀ s₀)
    (hduring : Steps (s₀.begin (.invalidate matching)) h₁ s₁)
    (hended : s₁.calls[s₀.calls.length]? = some ⟨.invalidate matching, .ended answer⟩)
    (hafter : Steps s₁ h₂ s₂) {j : Nat} {call : Call κ σ ε} (hlate : s₁.calls.length ≤ j)
    (hcall : s₂.calls[j]? = some call) (hkey : call.request.key? = some key)
    (hmatching : matching key = true) (hvalue : call.phase.answer? = some (.value m)) :
    ∃ b, (b, .lands key m) ∈ h₀ ++ h₁ ++ h₂ ∧ (b, .builds key) ∈ h₁ ++ h₂ ∧
      (∀ key', (b, .builds key') ∉ h₀) ∧
      ∀ b' key' m', (b', .lands key' m') ∈ h₀ ++ h₁ ++ h₂ → m'.serial = m.serial → b' = b := by
  let old : Nat → Prop := fun b => ∃ key, (b, .builds key) ∈ h₀
  have hbegun : Steps (start policy) h₀ (s₀.begin (.invalidate matching)) := by
    simpa using hbefore.tail (.begin s₀ (.invalidate matching))
  have hsince : Since old h₀ (s₀.begin (.invalidate matching)) := ⟨⟨policy, hbegun⟩, fun _ hb => hb⟩
  have hsweeping : Sweeping old matching s₀.calls.length h₀ (s₀.begin (.invalidate matching)) :=
    ⟨.begun, getElem?_begin_self s₀ _, Or.inl rfl⟩
  obtain ⟨hsince₁, hsweeping₁⟩ := hsince.of_steps Sweeping.of_step hsweeping hduring
  have hold : ∀ b, old b → b < s₁.calls.length := fun b ⟨_, hmem⟩ =>
    Nat.lt_of_lt_of_le ((accounts_of_steps hbegun).begun b _ hmem) hduring.length_le
  obtain ⟨hsince₂, hpurged⟩ :=
    hsince₁.of_steps (fun hs => Purged.of_step hs hold) (hsweeping₁.purged hended) hafter
  have ha := hsince₂.accounts
  obtain ⟨b, hlands⟩ := ha.values j call key m hcall hkey hvalue
  have hrecent := hpurged.values j call key m hlate hcall hkey hmatching hvalue b key hlands
  have hnot : ∀ key', (b, .builds key') ∉ h₀ := fun key' hmem => hrecent ⟨key', hmem⟩
  refine ⟨b, hlands, ?_, hnot, fun b' key' m' hmem hserial => ?_⟩
  · have hbuilds := (ha.landed b key m hlands).2
    rw [List.append_assoc] at hbuilds
    exact (List.mem_append.mp hbuilds).resolve_left (hnot key)
  · exact (ha.serials b' b key' key m' m hmem hlands hserial).1

/-- One call makes a value. -/
def oneBuilding : Shared Nat Nat Unit where
  cache := { policy := ⟨true, 1⟩, entries := [(5, ⟨0, 0⟩)], slots := [⟨none, 1, true⟩], clock := 1
             misses := 1 }
  calls := [⟨.fetch 5, .building (some 0)⟩]

/-- The value has landed and been invalidated. -/
def oneInvalidated : Shared Nat Nat Unit where
  cache := { policy := ⟨true, 1⟩, entries := [(5, ⟨0, 0⟩)], slots := [⟨none, 0, false⟩], clock := 1
             made := 1, misses := 1, builds := 1 }
  calls := [⟨.fetch 5, .ended (.value ⟨0, 7⟩)⟩, ⟨.invalidate fun _ => true, .ended .done⟩]
  late := [0, 0]

theorem steps_oneBuilding :
    Steps (start ⟨true, 1⟩) [(0, .reads 5 none), (0, .builds 5)] oneBuilding := by
  have begun := (Steps.refl (start ⟨true, 1⟩ : Shared Nat Nat Unit)).tail (.begin _ (.fetch 5))
  have timed := begun.tail (.advance (j := 0) rfl (.tick rfl))
  have waits := timed.tail (.advance (j := 0) rfl (.acquire (Cache.takesSlot_acquire rfl)))
  have builds := waits.tail (.advance (j := 0) rfl (.miss rfl rfl))
  exact builds

/-- The invalidation waits for the build, and empties the slot once the value has landed. -/
theorem steps_oneInvalidated :
    Steps (oneBuilding.begin (.invalidate fun _ => true))
      [(0, .lands 5 ⟨0, 7⟩), (1, .forgets 5)] oneInvalidated := by
  have swept := (Steps.refl (oneBuilding.begin (.invalidate fun _ => true))).tail
    (.advance (j := 1) rfl (.sweep (List.nil_subset _) rfl (.refl _)))
  have landed := swept.tail (.advance (j := 0) rfl (.land (v := 7) rfl))
  have unlocked := landed.tail (.advance (j := 0) rfl .unlock)
  have ended := unlocked.tail (.advance (j := 0) rfl .drop)
  have emptied := ended.tail (.advance (j := 1) rfl (.empty rfl))
  have unlocked := emptied.tail (.advance (j := 1) rfl .unlock)
  have ended := unlocked.tail (.advance (j := 1) rfl .drop)
  exact ended

/-- An invalidation in the middle of a build, and a call after it. -/
theorem builds_since_invalidation_midway :
    ∃ h s, Steps oneInvalidated h s ∧
      s.calls[2]? = some ⟨.fetch 5, .served 0 [] (.value ⟨1, 8⟩)⟩ ∧
      ∃ b, (b, .lands 5 ⟨1, 8⟩) ∈ [(0, .reads 5 none), (0, .builds 5)] ++
        [(0, .lands 5 ⟨0, 7⟩), (1, .forgets 5)] ++ h ∧
        (b, .builds 5) ∈ [(0, .lands 5 ⟨0, 7⟩), (1, .forgets 5)] ++ h := by
  have begun := (Steps.refl oneInvalidated).tail (.begin _ (.fetch 5))
  have timed := begun.tail (.advance (j := 2) rfl (.tick rfl))
  have waits := timed.tail (.advance (j := 2) rfl (.acquire (Cache.takesSlot_acquire rfl)))
  have builds := waits.tail (.advance (j := 2) rfl (.miss rfl rfl))
  have lands := builds.tail (.advance (j := 2) rfl (.land (v := 8) rfl))
  refine ⟨_, _, lands, rfl, ?_⟩
  obtain ⟨b, hlands, hbuilds, -⟩ := builds_since_invalidation steps_oneBuilding steps_oneInvalidated
    rfl lands (j := 2) (Nat.le_refl _) rfl rfl rfl rfl
  exact ⟨b, hlands, hbuilds⟩

end Shared

end CriteriaQuery

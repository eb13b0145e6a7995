import CriteriaQuery.Proofs.Cache.Overlap
import Mathlib

/-!
# Slots in use

While calls overlap, the holders of a slot are counted right, a slot is locked exactly if one
call has it locked, and every slot that a call holds is the place of a key that the call is
about. So nothing takes away the place of a slot in use, and one call at a time makes a value for
a slot, which is empty as long as it does.

## Implementation notes

`Moves` says what a section does as far as other calls can tell. Every rule of `Cache.Section` is
brought under it once, and the invariant `Shared.Sound` is carried on from there.
-/

namespace CriteriaQuery

variable {κ σ ε : Type}

/-! ### Sums over calls -/

theorem sum_map_set {α : Type} (f : α → Nat) {as : List α} {j : Nat} {a : α} (b : α)
    (h : as[j]? = some a) : ((as.set j b).map f).sum + f a = (as.map f).sum + f b := by
  induction as generalizing j with
  | nil => simp at h
  | cons first rest ih =>
      cases j with
      | zero =>
          obtain rfl : first = a := by simpa using h
          simp only [List.set_cons_zero, List.map_cons, List.sum_cons]
          omega
      | succ j =>
          have hrest := ih (by simpa using h)
          simp only [List.set_cons_succ, List.map_cons, List.sum_cons]
          omega

theorem le_sum_map {α : Type} (f : α → Nat) {as : List α} {j : Nat} {a : α}
    (h : as[j]? = some a) : f a ≤ (as.map f).sum :=
  List.le_sum_of_mem (List.mem_map_of_mem (List.mem_of_getElem? h))

/-- Two members count twice. -/
theorem add_le_sum_map {α : Type} (f : α → Nat) {as : List α} {j k : Nat} {a b : α} (hjk : j ≠ k)
    (hj : as[j]? = some a) (hk : as[k]? = some b) : f a + f b ≤ (as.map f).sum := by
  induction as generalizing j k with
  | nil => simp at hj
  | cons first rest ih =>
      rw [List.map_cons, List.sum_cons]
      cases j with
      | zero =>
          obtain rfl : first = a := by simpa using hj
          obtain ⟨k, rfl⟩ := Nat.exists_eq_succ_of_ne_zero (Ne.symm hjk)
          have hrest : rest[k]? = some b := by simpa using hk
          have := le_sum_map f hrest
          omega
      | succ j =>
          cases k with
          | zero =>
              obtain rfl : first = b := by simpa using hk
              have := le_sum_map f (by simpa using hj : rest[j]? = some a)
              omega
          | succ k =>
              have := ih (by simpa using hjk) (by simpa using hj) (by simpa using hk)
              omega

namespace Phase

variable (answer : Answer σ ε) (is : List Nat)

@[simp] theorem holds_next : (next answer is).holds = is := by
  cases is <;> rfl

@[simp] theorem locks_next : (next answer is).locks = none := by
  cases is <;> rfl

theorem eq_of_answer?_next {answer' : Answer σ ε} (h : (next answer is).answer? = some answer') :
    answer' = answer := by
  cases is with
  | nil => exact (Option.some.inj h).symm
  | cons => nomatch h

theorem next_ne_timed (now : Nat) : next answer is ≠ .timed now := by
  cases is <;> nofun

@[simp] theorem next_ne_building (slot : Option Nat) : next answer is ≠ .building slot := by
  cases is <;> nofun

section

variable {phase : Phase σ ε} {i : Nat} {rest : List Nat}

theorem mem_holds_of_waiting (h : phase = .waiting i rest) : i ∈ phase.holds :=
  h ▸ List.mem_cons_self

theorem mem_holds_of_building (h : phase = .building (some i)) : i ∈ phase.holds :=
  h ▸ List.mem_cons_self

theorem locks_of_building (h : phase = .building (some i)) : phase.locks = some i := h ▸ rfl

end

end Phase

namespace Cache

/-! ### What other calls can tell of a section -/

/-- What a call may rely on before it goes on. -/
structure Fits (c : Cache κ σ) (request : Request κ) (phase : Phase σ ε) : Prop where
  sound : c.Sound
  placed : ∀ i ∈ phase.holds, ∃ key, request.Concerns key ∧ (key, i) ∈ c.places
  holders : ∀ i, phase.holds.count i ≤ (c.slot i).holders
  locked : ∀ i, phase.locks = some i → (c.slot i).locked = true

/-- What a section does: it keeps the places in use, adds empty ones for new keys only, takes hold
of places of its keys, counts itself among the holders and at the lock, fills no slot but the one
that it has made a value for, and makes values for empty slots. -/
structure Moves (request : Request κ) (phase : Phase σ ε) (c : Cache κ σ)
    (hs : List (Happening κ σ ε)) (phase' : Phase σ ε) (c' : Cache κ σ) : Prop where
  sound : c'.Sound
  placed : ∀ i ∈ phase'.holds, ∃ key, request.Concerns key ∧ (key, i) ∈ c'.places
  busy : ∀ place ∈ c.places, (c.slot place.2).holders ≠ 0 → place ∈ c'.places
  of_mem : ∀ place ∈ c'.places, place ∈ c.places ∨
    (∀ j, (place.1, j) ∉ c.places) ∧ (c.slot place.2).content = none
  holders : ∀ i, (c'.slot i).holders + phase.holds.count i =
    (c.slot i).holders + phase'.holds.count i
  locked : ∀ i, (c'.slot i).locked.toNat + phase.locks.toList.count i =
    (c.slot i).locked.toNat + phase'.locks.toList.count i
  content : ∀ i m, (c'.slot i).content = some m → (c.slot i).content = some m ∨
    phase = .building (some i) ∧ ∃ key, request = .fetch key ∧ .lands key m ∈ hs
  empty : ∀ i, phase' = .building (some i) → (c'.slot i).content = none
  policy : c'.policy = c.policy

variable {request : Request κ} {phase phase' : Phase σ ε} {hs : List (Happening κ σ ε)}
  {c c' : Cache κ σ} {i : Nat} {rest late : List Nat}

theorem Fits.inRange (h : Fits c request phase) (hi : i ∈ phase.holds) : i < c.slots.length := by
  obtain ⟨key, -, hmem⟩ := h.placed i hi
  exact h.sound.inRange _ hmem

/-- A section that changes nothing but counts and the call's own progress. -/
theorem Fits.moves_quiet (h : Fits c request phase) (hholds : phase'.holds = phase.holds)
    (hlocks : phase'.locks = phase.locks) (hempty : ∀ i, phase' ≠ .building (some i))
    (hentries : c'.entries = c.entries) (hslots : c'.slots = c.slots)
    (hpolicy : c'.policy = c.policy) : Moves request phase c hs phase' c' := by
  have hplaces : c'.places = c.places := by rw [places, hentries, places]
  have hslot : ∀ j, c'.slot j = c.slot j := fun j => by rw [slot, hslots, slot]
  constructor
  · exact h.sound.of_sublist (hplaces ▸ .refl _) (Nat.le_of_eq (by rw [hslots]))
  · exact fun i hi => hplaces ▸ h.placed i (hholds ▸ hi)
  · exact fun place hplace _ => hplaces ▸ hplace
  · exact fun place hplace => Or.inl (hplaces ▸ hplace)
  · exact fun i => by rw [hslot, hholds]
  · exact fun i => by rw [hslot, hlocks]
  · exact fun i m hm => Or.inl (hslot i ▸ hm)
  · exact fun i hi => absurd hi (hempty i)
  · exact hpolicy

theorem moves_acquires {key : κ} (hkey : request.Concerns key) (h : phase.holds = [])
    (hlocks : phase.locks = none) (hacquires : Acquires c key i c') :
    Moves request phase c hs (.waiting i []) c' := by
  constructor
  · exact hacquires.sound
  · intro j hj
    obtain rfl := List.mem_singleton.mp hj
    exact ⟨key, hkey, hacquires.mem⟩
  · exact hacquires.busy
  · exact hacquires.of_mem
  · intro j
    rw [hacquires.holders, h, List.count_nil, Nat.add_zero]
    rfl
  · intro j
    rw [hacquires.locked, hlocks]
    rfl
  · exact fun j m hm => Or.inl (hacquires.content j ▸ hm)
  · exact fun j hj => nomatch hj
  · exact hacquires.policy

theorem moves_sweeps {matching : κ → Bool} {busy : List Nat}
    (hsweeps : Sweeps c matching busy c') :
    Moves (.invalidate matching) (.begun : Phase σ ε) c hs (.next .done busy) c' := by
  constructor
  · exact hsweeps.sound
  · intro i hi
    rw [Phase.holds_next] at hi
    obtain ⟨key, hmem, hkey⟩ := (hsweeps.mem_busy i).mp hi
    exact ⟨key, hkey, hmem⟩
  · exact fun place hplace hholders => hsweeps.kept place hplace (Or.inl hholders)
  · exact fun place hplace => Or.inl (hsweeps.of_mem place hplace)
  · exact fun j => by rw [hsweeps.holders, Phase.holds_next]; rfl
  · exact fun j => by rw [hsweeps.locked, Phase.locks_next]; rfl
  · exact fun j m hm => Or.inl (hsweeps.content j ▸ hm)
  · exact fun j hj => absurd hj (Phase.next_ne_building _ _ _)
  · exact hsweeps.policy

/-- A section that locks the slot that the call has waited for. -/
theorem Fits.moves_lock (h : Fits c request (.waiting i rest : Phase σ ε))
    (hfree : (c.slot i).locked = false) (hholds : phase'.holds = i :: rest)
    (hlocks : phase'.locks = some i)
    (hempty : ∀ j, phase' = .building (some j) → (c.slot j).content = none) :
    Moves request (.waiting i rest) c hs phase' (c.lock i) := by
  have hrange : i < c.slots.length := h.inRange List.mem_cons_self
  constructor
  · exact h.sound.modifySlot ..
  · rw [hholds]
    exact h.placed
  · exact fun place hplace _ => hplace
  · exact fun place hplace => Or.inl hplace
  · exact fun j => by rw [holders_lock, hholds]; rfl
  · intro j
    rw [locked_lock hrange, hlocks]
    by_cases hij : i = j
    · subst hij
      simp [hfree, Phase.locks]
    · simp [hij, Phase.locks]
  · exact fun j m hm => Or.inl (content_lock ▸ hm)
  · exact fun j hj => content_lock.trans (hempty j hj)
  · rfl

/-- Counting changes nothing that others can tell. -/
theorem Moves.congr {c'' : Cache κ σ} (h : Moves request phase c hs phase' c')
    (hentries : c''.entries = c'.entries) (hslots : c''.slots = c'.slots)
    (hpolicy : c''.policy = c'.policy) : Moves request phase c hs phase' c'' := by
  have hplaces : c''.places = c'.places := by rw [places, hentries, places]
  have hslot : ∀ j, c''.slot j = c'.slot j := fun j => by rw [slot, hslots, slot]
  constructor
  · exact h.sound.of_sublist (hplaces ▸ .refl _) (Nat.le_of_eq (by rw [hslots]))
  · exact hplaces ▸ h.placed
  · exact hplaces ▸ h.busy
  · exact hplaces ▸ h.of_mem
  · exact fun j => hslot j ▸ h.holders j
  · exact fun j => hslot j ▸ h.locked j
  · exact fun j => hslot j ▸ h.content j
  · exact fun j => hslot j ▸ h.empty j
  · exact hpolicy.trans h.policy

/-- A slot is emptied, or filled by the call that has made a value for it. -/
theorem Moves.fill (h : Moves request phase c hs phase' c') {x : Option (Made σ)}
    (hrange : i < c'.slots.length)
    (hx : ∀ m, x = some m → phase = .building (some i) ∧
      ∃ key, request = .fetch key ∧ .lands key m ∈ hs)
    (hphase : ∀ j, phase' ≠ .building (some j)) :
    Moves request phase c hs phase' (c'.fill i x) := by
  constructor
  · exact h.sound.modifySlot ..
  · exact h.placed
  · exact h.busy
  · exact h.of_mem
  · exact fun j => by rw [holders_fill, h.holders]
  · exact fun j => by rw [locked_fill, h.locked]
  · intro j m hm
    rw [content_fill hrange] at hm
    split at hm
    · next hij => exact Or.inr (hij ▸ hx m hm)
    · exact h.content j m hm
  · exact fun j hj => absurd hj (hphase j)
  · exact h.policy

/-- A section that unlocks a slot which the call goes on holding. -/
theorem Fits.moves_unlock (h : Fits c request phase) (hlocks : phase.locks = some i)
    (hlocks' : phase'.locks = none) (hholds : phase'.holds = phase.holds) :
    Moves request phase c hs phase' (c.unlock i) := by
  have hlocked : (c.slot i).locked = true := h.locked i hlocks
  constructor
  · exact h.sound.modifySlot ..
  · rw [hholds]
    exact h.placed
  · exact fun place hplace _ => hplace
  · exact fun place hplace => Or.inl hplace
  · exact fun j => by rw [holders_unlock, hholds]
  · intro j
    rw [locked_unlock, hlocks, hlocks']
    by_cases hij : i = j
    · subst hij
      simp [hlocked]
    · simp [hij]
  · exact fun j m hm => Or.inl (content_unlock ▸ hm)
  · exact fun j hj => nomatch hlocks'.symm.trans (Phase.locks_of_building hj)
  · rfl

theorem Fits.moves_drop {answer : Answer σ ε} (h : Fits c request (.leaving i rest answer)) :
    Moves request (.leaving i rest answer) c hs (.next answer rest) (c.drop i) := by
  constructor
  · exact h.sound.modifySlot ..
  · intro j hj
    rw [Phase.holds_next] at hj
    exact h.placed j (List.mem_cons_of_mem i hj)
  · exact fun place hplace _ => hplace
  · exact fun place hplace => Or.inl hplace
  · intro j
    have hholders := h.holders j
    rw [Phase.holds, count_cons_eq i rest] at hholders
    rw [holders_drop, Phase.holds_next, Phase.holds, count_cons_eq i rest]
    omega
  · exact fun j => by rw [locked_drop, Phase.locks_next]; rfl
  · exact fun j m hm => Or.inl (content_drop ▸ hm)
  · exact fun j hj => absurd hj (Phase.next_ne_building _ _ _)
  · rfl

@[simp] theorem entries_count (found : Bool) : (c.count found).entries = c.entries := by
  cases found <;> rfl

@[simp] theorem slots_count (found : Bool) : (c.count found).slots = c.slots := by
  cases found <;> rfl

@[simp] theorem policy_count (found : Bool) : (c.count found).policy = c.policy := by
  cases found <;> rfl

variable [DecidableEq κ]

/-- Every section moves on in this way. -/
theorem Section.moves (h : Fits c request phase)
    (hsection : Section late request phase c hs phase' c') :
    Moves request phase c hs phase' c' := by
  cases hsection with
  | bypass => exact h.moves_quiet rfl rfl (fun _ => nofun) rfl rfl rfl
  | tick => exact h.moves_quiet rfl rfl (fun _ => nofun) rfl rfl rfl
  | fail => exact h.moves_quiet rfl rfl (fun _ => nofun) rfl rfl rfl
  | landUnkept hmake =>
      obtain ⟨rfl, rfl⟩ := Prod.mk.inj hmake
      exact h.moves_quiet rfl rfl (fun _ => nofun) rfl rfl rfl
  | failUnkept => exact h.moves_quiet rfl rfl (fun _ => nofun) rfl rfl rfl
  | absent => exact h.moves_quiet rfl rfl (fun _ => nofun) rfl rfl rfl
  | acquire htakes => exact moves_acquires rfl rfl rfl (acquires_of_takesSlot h.sound htakes)
  | find _ hfind => exact moves_acquires rfl rfl rfl (acquires_find h.sound hfind)
  | sweep _ hsweep horder => exact moves_sweeps ((sweeps_of_idlePast h.sound hsweep).perm horder)
  | hit hlock =>
      obtain ⟨hfree, rfl⟩ := lock?_eq_some_iff.mp hlock
      refine Moves.congr ?_ (entries_count _) (slots_count _) (policy_count _)
      exact h.moves_lock hfree rfl rfl fun _ => nofun
  | look hlock =>
      obtain ⟨hfree, rfl⟩ := lock?_eq_some_iff.mp hlock
      exact h.moves_lock hfree rfl rfl fun _ => nofun
  | release => exact h.moves_unlock rfl rfl rfl
  | count =>
      exact h.moves_quiet rfl rfl (fun _ => nofun) (entries_count _) (slots_count _)
        (policy_count _)
  | @miss key i c c' hlock hnone =>
      obtain ⟨hfree, rfl⟩ := lock?_eq_some_iff.mp hlock
      have hempty : ∀ j, (.building (some i) : Phase σ ε) = .building (some j) →
          (c.slot j).content = none := by
        rintro j ⟨⟩
        exact content_lock.symm.trans hnone
      refine Moves.congr ?_ (entries_count _) (slots_count _) (policy_count _)
      exact h.moves_lock hfree rfl rfl hempty
  | empty hlock =>
      obtain ⟨hfree, rfl⟩ := lock?_eq_some_iff.mp hlock
      refine Moves.fill ?_ ?_ nofun fun _ => nofun
      · exact h.moves_lock hfree rfl rfl fun _ => nofun
      · rw [length_slots_lock]
        exact h.inRange List.mem_cons_self
  | @land key i c v m c' hmake =>
      obtain ⟨rfl, rfl⟩ := Prod.mk.inj hmake
      refine Moves.fill ?_ (h.inRange List.mem_cons_self) ?_ fun _ => nofun
      · exact h.moves_quiet rfl rfl (fun _ => nofun) rfl rfl rfl
      · rintro _ ⟨⟩
        exact ⟨rfl, key, rfl, List.mem_singleton.mpr rfl⟩
  | unlock => exact h.moves_unlock rfl rfl rfl
  | drop => exact h.moves_drop

end Cache

/-! ### The invariant -/

namespace Shared

/-- How often a slot stands in a list that each call has. -/
def tally (s : Shared κ σ ε) (f : Phase σ ε → List Nat) (i : Nat) : Nat :=
  (s.calls.map fun call => (f call.phase).count i).sum

/-- The holders and the locks of all slots are those of the calls, every slot that a call holds is
the place of a key that the call is about, and a slot for which a value is made is empty. -/
structure Sound (s : Shared κ σ ε) : Prop where
  cache : s.cache.Sound
  placed : ∀ (j : Nat) (call : Call κ σ ε), s.calls[j]? = some call → ∀ i ∈ call.phase.holds,
    ∃ key, call.request.Concerns key ∧ (key, i) ∈ s.cache.places
  holders : ∀ i, (s.cache.slot i).holders = s.tally Phase.holds i
  locked : ∀ i, (s.cache.slot i).locked.toNat = s.tally (fun phase => phase.locks.toList) i
  empty : ∀ (j : Nat) (call : Call κ σ ε), s.calls[j]? = some call → ∀ i,
    call.phase = .building (some i) → (s.cache.slot i).content = none

variable {s t : Shared κ σ ε} {j : Nat} {call : Call κ σ ε}

theorem count_le_tally (f : Phase σ ε → List Nat) (hcall : s.calls[j]? = some call) (i : Nat) :
    (f call.phase).count i ≤ s.tally f i :=
  le_sum_map (fun call => (f call.phase).count i) hcall

theorem Sound.fits (h : s.Sound) (hcall : s.calls[j]? = some call) :
    Cache.Fits s.cache call.request call.phase where
  sound := h.cache
  placed := h.placed j call hcall
  holders i := h.holders i ▸ count_le_tally Phase.holds hcall i
  locked i hlocks := by
    have hcount := count_le_tally (fun phase => phase.locks.toList) hcall i
    rw [← h.locked, hlocks] at hcount
    cases hslot : (s.cache.slot i).locked with
    | true => rfl
    | false => simp [hslot] at hcount

/-- A call for a key holds the place of that key. -/
theorem Sound.place_of_key (h : s.Sound) (hcall : s.calls[j]? = some call) {key : κ}
    (hkey : call.request.key? = some key) {i : Nat} (hi : i ∈ call.phase.holds) :
    (key, i) ∈ s.cache.places := by
  obtain ⟨key', hconcerns, hplace⟩ := h.placed j call hcall i hi
  rwa [(Request.concerns_iff hkey).mp hconcerns] at hplace

/-- Two calls never have the same slot locked. -/
theorem Sound.eq_of_locks (h : s.Sound) {k : Nat} {call' : Call κ σ ε} {i : Nat}
    (hcall : s.calls[j]? = some call) (hcall' : s.calls[k]? = some call')
    (hlocks : call.phase.locks = some i) (hlocks' : call'.phase.locks = some i) : j = k := by
  by_contra hjk
  have hsum := add_le_sum_map (fun call => call.phase.locks.toList.count i) hjk hcall hcall'
  have htally := h.locked i
  have hbool := Bool.toNat_le (s.cache.slot i).locked
  simp only [hlocks, hlocks', Option.toList_some, List.count_singleton_self] at hsum
  dsimp only [tally] at htally
  omega

/-- A slot is locked by some call. -/
theorem Sound.exists_locks (hs : s.Sound) (hlocked : (s.cache.slot i).locked = true) :
    ∃ (j : Nat) (call : Call κ σ ε), s.calls[j]? = some call ∧ call.phase.locks = some i := by
  by_contra hnone
  have hzero : s.tally (fun phase => phase.locks.toList) i = 0 := by
    apply List.sum_eq_zero
    intro n hn
    obtain ⟨call, hcall, rfl⟩ := List.mem_map.mp hn
    obtain ⟨j, hj⟩ := List.mem_iff_getElem?.mp hcall
    apply List.count_eq_zero.mpr
    intro hlocks
    exact hnone ⟨j, call, hj, Option.mem_toList.mp hlocks⟩
  have htally := hs.locked i
  rw [hzero, hlocked] at htally
  nomatch htally

theorem sound_start (policy : CachePolicy) : (start policy : Shared κ σ ε).Sound where
  cache := ⟨List.nodup_nil, List.nodup_nil, fun _ h => nomatch h⟩
  placed _ _ h := nomatch h
  holders _ := rfl
  locked _ := rfl
  empty _ _ h := nomatch h

theorem tally_begin (request : Request κ) (f : Phase σ ε → List Nat) (hf : f .begun = [])
    (i : Nat) : (s.begin request).tally f i = s.tally f i := by
  simp [tally, begin, hf]

theorem getElem?_begin_self (s : Shared κ σ ε) (request : Request κ) :
    (s.begin request).calls[s.calls.length]? = some { request } := by
  simp [begin]

theorem getElem?_begin {request : Request κ} (h : (s.begin request).calls[j]? = some call) :
    s.calls[j]? = some call ∨ call = { request } := by
  rw [begin, List.getElem?_append] at h
  split at h
  · exact Or.inl h
  · obtain ⟨-, rfl⟩ : j - s.calls.length = 0 ∧ { request } = call := by
      simpa [List.getElem?_singleton] using h
    exact Or.inr rfl

theorem Sound.begin (h : s.Sound) (request : Request κ) : (s.begin request).Sound where
  cache := h.cache
  placed j call hcall i hi := by
    rcases getElem?_begin hcall with hcall | rfl
    · exact h.placed j call hcall i hi
    · nomatch hi
  holders i := by rw [tally_begin request _ rfl]; exact h.holders i
  locked i := by rw [tally_begin request _ rfl]; exact h.locked i
  empty j call hcall i hi := by
    rcases getElem?_begin hcall with hcall | rfl
    · exact h.empty j call hcall i hi
    · nomatch hi

/-- Where the calls are after one of them has moved on. -/
theorem getElem?_set_cases {calls : List (Call κ σ ε)} {k : Nat} {new : Call κ σ ε}
    (h : (calls.set j new)[k]? = some call) :
    k = j ∧ call = new ∨ k ≠ j ∧ calls[k]? = some call := by
  rw [List.getElem?_set] at h
  split at h
  · next hjk =>
      split at h
      · exact Or.inl ⟨hjk.symm, (Option.some.inj h).symm⟩
      · nomatch h
  · next hjk => exact Or.inr ⟨Ne.symm hjk, h⟩

theorem Sound.advance (h : s.Sound) (hcall : s.calls[j]? = some call) {phase : Phase σ ε}
    {c : Cache κ σ} {hs : List (Happening κ σ ε)}
    (hmoves : Cache.Moves call.request call.phase s.cache hs phase c) (late : List Nat) :
    (⟨c, s.calls.set j { call with phase }, late⟩ : Shared κ σ ε).Sound := by
  constructor
  · exact hmoves.sound
  · intro k call' hcall' i hi
    rcases getElem?_set_cases hcall' with ⟨rfl, rfl⟩ | ⟨-, hcall'⟩
    · exact hmoves.placed i hi
    · obtain ⟨key, hkey, hmem⟩ := h.placed k call' hcall' i hi
      have hheld := List.count_pos_iff.mpr hi
      have hcount := (h.fits hcall').holders i
      exact ⟨key, hkey, hmoves.busy _ hmem (by dsimp only; omega)⟩
  · intro i
    have hset := sum_map_set (fun call => call.phase.holds.count i) { call with phase } hcall
    have hbalance := hmoves.holders i
    have hheld := h.holders i
    dsimp only [tally] at hset hheld ⊢
    omega
  · intro i
    have hset := sum_map_set (fun call => call.phase.locks.toList.count i) { call with phase } hcall
    have hbalance := hmoves.locked i
    have hlocked := h.locked i
    dsimp only [tally] at hset hlocked ⊢
    omega
  · intro k call' hcall' i hi
    rcases getElem?_set_cases hcall' with ⟨rfl, rfl⟩ | ⟨hkj, hcall'⟩
    · exact hmoves.empty i hi
    · rw [Option.eq_none_iff_forall_ne_some]
      intro m hm
      have hnone := h.empty k call' hcall' i hi
      -- the call that moves has another slot locked than the one that builds
      rcases hmoves.content i m hm with hold | ⟨hphase, -⟩
      · exact absurd (hold.symm.trans hnone) nofun
      · exact hkj (h.eq_of_locks hcall' hcall (Phase.locks_of_building hi)
          (Phase.locks_of_building hphase))

variable [DecidableEq κ] {h es : List (Event κ σ ε)}

theorem Sound.of_step (hs : s.Sound) (hstep : Step s es t) : t.Sound := by
  cases hstep with
  | begin request => exact hs.begin request
  | advance hcall hsection => exact hs.advance hcall (hsection.moves (hs.fits hcall)) _

theorem Sound.of_steps (hs : s.Sound) (hsteps : Steps s h t) : t.Sound := by
  induction hsteps with
  | refl => exact hs
  | tail _ hstep ih => exact ih.of_step hstep

/-- Whatever steps a new cache has gone through, it is sound. -/
theorem sound_of_steps {policy : CachePolicy} (hsteps : Steps (start policy) h s) : s.Sound :=
  (sound_start policy).of_steps hsteps

theorem policy_of_step (hs : s.Sound) (hstep : Step s es t) :
    t.cache.policy = s.cache.policy := by
  cases hstep with
  | begin request => rfl
  | advance hcall hsection => exact (hsection.moves (hs.fits hcall)).policy

theorem policy_of_steps (hs : s.Sound) (hsteps : Steps s h t) :
    t.cache.policy = s.cache.policy := by
  induction hsteps with
  | refl => rfl
  | tail hsteps hstep ih => exact (policy_of_step (hs.of_steps hsteps) hstep).trans ih

end Shared

end CriteriaQuery

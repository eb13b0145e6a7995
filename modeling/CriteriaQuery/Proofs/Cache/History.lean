import CriteriaQuery.Proofs.Cache.Held

/-!
# What a history tells

The values that have landed and the keys that have been forgotten say what the slot of every key
holds, as long as values are kept. Each event also says something of the call that it belongs to,
and of the slot that the call is at.
-/

namespace CriteriaQuery

variable {κ σ ε : Type}

namespace Cache

variable {c c' : Cache κ σ} {request : Request κ} {phase phase' : Phase σ ε}
  {hs : List (Happening κ σ ε)} {key : κ} {i : Nat} {m : Made σ}

theorem mem_places_iff {place : κ × Nat} :
    place ∈ c.places ↔ ∃ e ∈ c.entries, e.1 = place.1 ∧ e.2.slot = place.2 := by
  simp [places, Prod.ext_iff]

theorem mem_keysAt_iff : key ∈ c.keysAt i ↔ (key, i) ∈ c.places := by
  simp only [keysAt, List.mem_map, List.mem_filter, mem_places_iff, decide_eq_true_eq]
  constructor
  · rintro ⟨e, ⟨he, hslot⟩, rfl⟩
    exact ⟨e, he, rfl, hslot⟩
  · rintro ⟨e, he, hkey, hslot⟩
    exact ⟨e, ⟨he, hslot⟩, hkey⟩

variable [DecidableEq κ]

/-! ### Contents by key -/

theorem mem_lost_iff :
    key ∈ c.lost c' ↔ (∃ i, (key, i) ∈ c.places) ∧ ∀ i, (key, i) ∉ c'.places := by
  rw [lost, List.mem_filter, Option.isNone_iff_eq_none, entry?_eq_none_iff]
  apply and_congr_left'
  simp [places]

/-- The content of a key is the same with the same places and contents of slots. -/
theorem Sound.content?_congr (h : c.Sound) (h' : c'.Sound) (hplaces : c'.places = c.places)
    (hcontent : ∀ j, (c'.slot j).content = (c.slot j).content) :
    c'.content? key = c.content? key := by
  by_cases hkey : ∃ i, (key, i) ∈ c.places
  · obtain ⟨i, hi⟩ := hkey
    rw [h.content?_eq hi, h'.content?_eq (hplaces ▸ hi), hcontent]
  · have hkey := not_exists.mp hkey
    rw [content?_eq_none hkey, content?_eq_none (hplaces ▸ hkey)]

theorem Sound.content?_fill (h : c.Sound) (hi : i < c.slots.length) (x : Option (Made σ)) :
    (c.fill i x).content? key = if (key, i) ∈ c.places then x else c.content? key := by
  have hsound : (c.fill i x).Sound :=
    h.modifySlot ..
  by_cases hkey : ∃ j, (key, j) ∈ c.places
  · obtain ⟨j, hj⟩ := hkey
    have hplace : (key, i) ∈ c.places ↔ i = j := ⟨fun hi => h.slot_eq hi hj, fun hij => hij ▸ hj⟩
    rw [hsound.content?_eq (show (key, j) ∈ (c.fill i x).places from hj), content_fill hi,
      h.content?_eq hj]
    simp [hplace]
  · have hkey := not_exists.mp hkey
    rw [if_neg (hkey i), content?_eq_none hkey,
      content?_eq_none (show ∀ j, (key, j) ∉ (c.fill i x).places from hkey)]

/-- Where places go, their keys lose their contents, and a key with a new place has none. -/
theorem Sound.content?_lost (h : c.Sound) (h' : c'.Sound)
    (hof : ∀ place ∈ c'.places, place ∈ c.places ∨
      (∀ j, (place.1, j) ∉ c.places) ∧ (c.slot place.2).content = none)
    (hcontent : ∀ j, (c'.slot j).content = (c.slot j).content) :
    c'.content? key = if key ∈ c.lost c' then none else c.content? key := by
  by_cases hkey' : ∃ i, (key, i) ∈ c'.places
  · obtain ⟨i, hi⟩ := hkey'
    rw [if_neg fun hlost => (mem_lost_iff.mp hlost).2 i hi, h'.content?_eq hi, hcontent]
    rcases hof _ hi with hold | ⟨hnew, hnone⟩
    · rw [h.content?_eq hold]
    · rw [content?_eq_none hnew, hnone]
  · have hkey' := not_exists.mp hkey'
    rw [content?_eq_none hkey']
    split
    · rfl
    · next hlost =>
        rw [content?_eq_none fun i hi => hlost (mem_lost_iff.mpr ⟨⟨i, hi⟩, hkey'⟩)]

end Cache

/-! ### What happens to the content of a key -/

section Update

variable [DecidableEq κ]

/-- What a key has after something has happened. -/
def Happening.update (key : κ) (held : Option (Made σ)) :
    Happening κ σ ε → Option (Made σ)
  | .lands key' m => if key' = key then some m else held
  | .forgets key' => if key' = key then none else held
  | _ => held

theorem foldl_update_forgets (key : κ) (keys : List κ) (held : Option (Made σ)) :
    (keys.map fun key' => (.forgets key' : Happening κ σ ε)).foldl (Happening.update key) held =
      if key ∈ keys then none else held := by
  induction keys generalizing held with
  | nil => rfl
  | cons first rest ih =>
      rw [List.map_cons, List.foldl_cons, ih, Happening.update]
      by_cases hrest : key ∈ rest
      · simp [hrest]
      · by_cases hfirst : first = key
        · simp [hfirst]
        · simp [hrest, hfirst, Ne.symm hfirst]

end Update

namespace Cache

variable [DecidableEq κ] {c c' : Cache κ σ} {request : Request κ} {phase phase' : Phase σ ε}
  {hs : List (Happening κ σ ε)} {key : κ} {i : Nat} {m : Made σ} {late : List Nat}

/-- As long as values are kept, what happens in a section is what happens to the contents. -/
theorem Section.content?_eq (h : Fits c request phase)
    (hsection : Section late request phase c hs phase' c') (hkept : phase ≠ .building none)
    (key : κ) :
    c'.content? key = hs.foldl (Happening.update key) (c.content? key) := by
  have hsound' : c'.Sound := (hsection.moves h).sound
  cases hsection with
  | bypass => rfl
  | tick => rfl
  | fail => rfl
  | landUnkept => exact absurd rfl hkept
  | failUnkept => exact absurd rfl hkept
  | absent => rfl
  | @acquire key' now c i c' htakes =>
      have hacquires := acquires_of_takesSlot h.sound htakes
      rw [foldl_update_forgets]
      exact h.sound.content?_lost hsound' hacquires.of_mem hacquires.content
  | find _ hfind =>
      have hacquires := acquires_find h.sound hfind
      exact h.sound.content?_congr hsound' (hacquires.kept (mem_places_of_find hfind))
        hacquires.content
  | @sweep matching c held busy c' order _ hsweep =>
      have hsweeps := sweeps_of_idlePast h.sound hsweep
      rw [foldl_update_forgets]
      exact h.sound.content?_lost hsound'
        (fun place hplace => Or.inl (hsweeps.of_mem place hplace)) hsweeps.content
  | hit hlock =>
      obtain ⟨-, rfl⟩ := lock?_eq_some_iff.mp hlock
      exact (content?_count _).trans content?_lock
  | miss hlock =>
      obtain ⟨-, rfl⟩ := lock?_eq_some_iff.mp hlock
      exact (content?_count _).trans content?_lock
  | look hlock =>
      obtain ⟨-, rfl⟩ := lock?_eq_some_iff.mp hlock
      exact content?_lock
  | release => exact content?_unlock
  | count => exact content?_count _
  | @land key' i c v m c' hmake =>
      have hmade : c' = (c.countBuild.make v).2 := congrArg Prod.snd hmake.symm
      have hslots : c'.slots = c.slots := by rw [hmade]; rfl
      have hplaces : c'.places = c.places := by rw [hmade]; rfl
      have hsound : c'.Sound :=
        h.sound.of_sublist (hplaces ▸ .refl _) (Nat.le_of_eq (by rw [hslots]))
      obtain ⟨_, rfl, hplace⟩ := h.placed i List.mem_cons_self
      have hplace' : (key, i) ∈ c'.places ↔ key' = key :=
        ⟨fun hkey => h.sound.key_eq hplace (hplaces ▸ hkey), fun hkey => hplaces ▸ hkey ▸ hplace⟩
      rw [hsound.content?_fill (hslots ▸ h.inRange List.mem_cons_self),
        h.sound.content?_congr hsound hplaces fun _ => by rw [slot, hslots, slot]]
      exact if_congr hplace' rfl rfl
  | @empty matching i rest c c' hlock =>
      obtain ⟨-, rfl⟩ := lock?_eq_some_iff.mp hlock
      have hsound : (c.lock i).Sound := h.sound.modifySlot ..
      have hrange : i < (c.lock i).slots.length := by
        rw [length_slots_lock]
        exact h.inRange List.mem_cons_self
      rw [hsound.content?_fill hrange, foldl_update_forgets, content?_lock]
      exact if_congr mem_keysAt_iff.symm rfl rfl
  | unlock => exact content?_unlock
  | drop => exact content?_drop

/-! ### What an event says of its call -/

/-- A call that looks into a slot has waited for it, and makes a value if it asks for one and
finds none. -/
theorem Section.of_reads {found : Option (Made σ)}
    (hsection : Section late request phase c hs phase' c') (hmem : .reads key found ∈ hs) :
    request.key? = some key ∧
      (∃ i, phase = .waiting i [] ∧ (c.slot i).locked = false ∧ found = (c.slot i).content) ∧
      (request = .fetch key → found = none → .builds key ∈ hs) := by
  cases hsection with
  | @hit _ i c c' m hlock hm =>
      obtain ⟨hfree, rfl⟩ := lock?_eq_some_iff.mp hlock
      obtain ⟨rfl, rfl⟩ : key = _ ∧ found = some m := by simpa using hmem
      exact ⟨rfl, ⟨i, rfl, hfree, by rw [← hm, content_lock]⟩, fun _ => nofun⟩
  | @miss _ i c c' hlock hnone =>
      obtain ⟨hfree, rfl⟩ := lock?_eq_some_iff.mp hlock
      obtain ⟨rfl, rfl⟩ : key = _ ∧ found = none := by simpa using hmem
      exact ⟨rfl, ⟨i, rfl, hfree, by rw [← hnone, content_lock]⟩, fun _ _ => by simp⟩
  | @look _ i c c' hlock =>
      obtain ⟨hfree, rfl⟩ := lock?_eq_some_iff.mp hlock
      obtain ⟨rfl, rfl⟩ : key = _ ∧ found = _ := by simpa using hmem
      exact ⟨rfl, ⟨i, rfl, hfree, rfl⟩, nofun⟩
  | _ => simp at hmem

/-- A call that starts to make a value asks for it, and has found none if values are kept. -/
theorem Section.of_builds (hsection : Section late request phase c hs phase' c')
    (hmem : .builds key ∈ hs) :
    request = .fetch key ∧ (∃ slot, phase' = .building slot) ∧
      (c.policy.enabled = true → .reads key none ∈ hs) := by
  cases hsection with
  | bypass hoff =>
      obtain rfl : key = _ := by simpa using hmem
      exact ⟨rfl, ⟨none, rfl⟩, fun hon => absurd hon (by simp [hoff])⟩
  | @miss _ i =>
      obtain rfl : key = _ := by simpa using hmem
      exact ⟨rfl, ⟨some i, rfl⟩, fun _ => List.mem_cons_self⟩
  | _ => simp at hmem

theorem Section.builds_of_building {slot : Option Nat}
    (hsection : Section late request phase c hs phase' c') (hphase : phase' = .building slot) :
    ∃ key, request = .fetch key ∧ .builds key ∈ hs := by
  cases hsection with
  | @bypass key => exact ⟨key, rfl, List.mem_singleton.mpr rfl⟩
  | @miss key => exact ⟨key, rfl, List.mem_cons_of_mem _ (List.mem_singleton.mpr rfl)⟩
  | sweep => exact absurd hphase (Phase.next_ne_building _ _ _)
  | drop => exact absurd hphase (Phase.next_ne_building _ _ _)
  | _ => nomatch hphase

/-- A value that lands is a new one, and the answer of the call that has made it. -/
theorem Section.of_lands (hsection : Section late request phase c hs phase' c')
    (hmem : .lands key m ∈ hs) :
    request = .fetch key ∧ (∃ slot, phase = .building slot) ∧ hs = [.lands key m] ∧
      m.serial = c.made ∧ c'.made = c.made + 1 ∧ phase'.answer? = some (.value m) := by
  cases hsection with
  | @land _ i c v m' c' hmake =>
      obtain ⟨rfl, rfl⟩ : key = _ ∧ m = m' := by simpa using hmem
      obtain ⟨rfl, rfl⟩ := Prod.mk.inj hmake
      exact ⟨rfl, ⟨some i, rfl⟩, rfl, rfl, rfl, rfl⟩
  | @landUnkept _ c v m' c' hmake =>
      obtain ⟨rfl, rfl⟩ : key = _ ∧ m = m' := by simpa using hmem
      obtain ⟨rfl, rfl⟩ := Prod.mk.inj hmake
      exact ⟨rfl, ⟨none, rfl⟩, rfl, rfl, rfl, rfl⟩
  | _ => simp at hmem

/-- A build that fails keeps its slot locked until the call leaves. -/
theorem Section.of_fails {e : ε} (hsection : Section late request phase c hs phase' c')
    (hmem : .fails key e ∈ hs) :
    request = .fetch key ∧ hs = [.fails key e] ∧
      (phase = .building none ∨
        ∃ i, phase = .building (some i) ∧ phase' = .served i [] (.error e)) := by
  cases hsection with
  | @fail _ i =>
      obtain ⟨rfl, rfl⟩ : key = _ ∧ e = _ := by simpa using hmem
      exact ⟨rfl, rfl, Or.inr ⟨i, rfl, rfl⟩⟩
  | failUnkept =>
      obtain ⟨rfl, rfl⟩ : key = _ ∧ e = _ := by simpa using hmem
      exact ⟨rfl, rfl, Or.inl rfl⟩
  | _ => simp at hmem

/-- A key is forgotten because it is invalidated, or evicted for another key while nobody holds
its slot. -/
theorem Section.of_forgets (h : Fits c request phase)
    (hsection : Section late request phase c hs phase' c') (hmem : .forgets key ∈ hs) :
    (∃ matching, request = .invalidate matching ∧ matching key = true) ∨
      ∃ key' i, request = .fetch key' ∧ key' ≠ key ∧ (key, i) ∈ c.places ∧
        (c.slot i).holders = 0 := by
  cases hsection with
  | @acquire key' now c i c' htakes =>
      have hacquires := acquires_of_takesSlot h.sound htakes
      obtain ⟨⟨j, hj⟩, hgone⟩ := mem_lost_iff.mp (show key ∈ c.lost c' by simpa using hmem)
      refine Or.inr ⟨key', j, rfl, ?_, hj, ?_⟩
      · rintro rfl
        exact hgone i hacquires.mem
      · by_contra hheld
        exact hgone j (hacquires.busy _ hj hheld)
  | @sweep matching c held busy c' order _ hsweep =>
      have hsweeps := sweeps_of_idlePast h.sound hsweep
      obtain ⟨⟨j, hj⟩, hgone⟩ := mem_lost_iff.mp (show key ∈ c.lost c' by simpa using hmem)
      refine Or.inl ⟨matching, rfl, ?_⟩
      by_contra hkey
      exact hgone j (hsweeps.kept _ hj (Or.inr (by simpa using hkey)))
  | @empty matching i rest =>
      have hplace : (key, i) ∈ c.places := mem_keysAt_iff.mp (by simpa using hmem)
      obtain ⟨key', hmatching, hplace'⟩ := h.placed i List.mem_cons_self
      exact Or.inl ⟨matching, rfl, h.sound.key_eq hplace' hplace ▸ hmatching⟩
  | _ => simp at hmem

/-- A value that a call gives has landed or was read just now, unless the call gave it before. -/
theorem Section.of_value (hsection : Section late request phase c hs phase' c')
    (hvalue : phase'.answer? = some (.value m)) :
    phase.answer? = some (.value m) ∨
      ∃ key, request.key? = some key ∧ (.lands key m ∈ hs ∨ .reads key (some m) ∈ hs) := by
  cases hsection with
  | @hit key i c c' m' =>
      obtain rfl : m' = m := by simpa [Phase.answer?] using hvalue
      exact Or.inr ⟨key, rfl, Or.inr (List.mem_singleton.mpr rfl)⟩
  | @land key i c v m' c' =>
      obtain rfl : m' = m := by simpa [Phase.answer?] using hvalue
      exact Or.inr ⟨key, rfl, Or.inl (List.mem_singleton.mpr rfl)⟩
  | @landUnkept key c v m' c' =>
      obtain rfl : m' = m := by simpa [Phase.answer?] using hvalue
      exact Or.inr ⟨key, rfl, Or.inl (List.mem_singleton.mpr rfl)⟩
  | @look key i c c' =>
      have hfound := Answer.ofFound_eq_value_iff.mp (Option.some.inj hvalue)
      exact Or.inr ⟨key, rfl, Or.inr (by simp [hfound])⟩
  | release => exact Or.inl hvalue
  | count => exact Or.inl hvalue
  | sweep => nomatch Phase.eq_of_answer?_next _ _ hvalue
  | unlock => exact Or.inl hvalue
  | @drop _ i rest =>
      cases rest with
      | nil => exact Or.inl hvalue
      | cons => simp [Phase.next, Phase.answer?] at hvalue
  | _ => simp [Phase.answer?] at hvalue

theorem Section.of_error {e : ε} (hsection : Section late request phase c hs phase' c')
    (herror : phase'.answer? = some (.error e)) :
    phase.answer? = some (.error e) ∨ ∃ key, request = .fetch key ∧ .fails key e ∈ hs := by
  cases hsection with
  | @fail key _ _ e' =>
      obtain rfl : e' = e := by simpa [Phase.answer?] using herror
      exact Or.inr ⟨key, rfl, List.mem_singleton.mpr rfl⟩
  | @failUnkept key _ e' =>
      obtain rfl : e' = e := by simpa [Phase.answer?] using herror
      exact Or.inr ⟨key, rfl, List.mem_singleton.mpr rfl⟩
  | look => exact absurd (Option.some.inj herror) Answer.ofFound_ne_error
  | release => exact Or.inl herror
  | count => exact Or.inl herror
  | sweep => nomatch Phase.eq_of_answer?_next _ _ herror
  | unlock => exact Or.inl herror
  | @drop _ i rest =>
      cases rest with
      | nil => exact Or.inl herror
      | cons => simp [Phase.next, Phase.answer?] at herror
  | _ => simp [Phase.answer?] at herror

end Cache

/-! ### The phases of calls -/

namespace Phase

/-- The slots that a call goes on to after the present one. -/
def rest : Phase σ ε → List Nat
  | .waiting _ rest => rest
  | .served _ rest _ => rest
  | .leaving _ rest _ => rest
  | _ => []

/-- Whether a call has yet to look at its slot. -/
def Unread : Phase σ ε → Prop
  | .begun => True
  | .timed _ => True
  | .waiting _ _ => True
  | _ => False

/-- A call has yet to look at its slot, makes a value, or knows its answer. -/
theorem progress (phase : Phase σ ε) :
    phase.Unread ∨ (∃ slot, phase = .building slot) ∨ ∃ answer, phase.answer? = some answer := by
  cases phase with
  | begun => exact Or.inl trivial
  | timed => exact Or.inl trivial
  | waiting => exact Or.inl trivial
  | building slot => exact Or.inr (Or.inl ⟨slot, rfl⟩)
  | _ => exact Or.inr (Or.inr ⟨_, rfl⟩)

theorem answer?_eq_none {phase : Phase σ ε} (h : phase.Unread) : phase.answer? = none := by
  cases phase with
  | begun => rfl
  | timed => rfl
  | waiting => rfl
  | _ => exact h.elim

end Phase

namespace Cache

variable [DecidableEq κ] {c c' : Cache κ σ} {request : Request κ} {phase phase' : Phase σ ε}
  {hs : List (Happening κ σ ε)} {late : List Nat}

theorem Section.rest_eq_nil (hsection : Section late request phase c hs phase' c') {key : κ}
    (hkey : request.key? = some key) (hrest : phase.rest = []) : phase'.rest = [] := by
  cases hsection with
  | sweep => nomatch hkey
  | empty => nomatch hkey
  | unlock => exact hrest
  | @drop _ i rest =>
      obtain rfl : rest = [] := hrest
      rfl
  | _ => rfl

theorem Section.not_unread (hsection : Section late request phase c hs phase' c')
    (hrest : phase.rest = []) (hread : ¬ phase.Unread) : ¬ phase'.Unread := by
  cases hsection with
  | @drop _ i rest =>
      obtain rfl : rest = [] := hrest
      exact id
  | unlock => exact id
  | release => exact id
  | count => exact id
  | fail => exact id
  | failUnkept => exact id
  | land => exact id
  | landUnkept => exact id
  | _ => exact absurd trivial hread

theorem Section.fetch_of_timed {now : Nat} (hsection : Section late request phase c hs phase' c')
    (hphase : phase' = .timed now) : ∃ key, request = .fetch key := by
  cases hsection with
  | @tick key => exact ⟨key, rfl⟩
  | sweep => exact absurd hphase (Phase.next_ne_timed _ _ _)
  | drop => exact absurd hphase (Phase.next_ne_timed _ _ _)
  | _ => nomatch hphase

theorem Section.ne_building_none (hsection : Section late request phase c hs phase' c')
    (hon : c.policy.enabled = true) : phase' ≠ .building none := by
  cases hsection with
  | bypass hoff => exact absurd hon (by simp [hoff])
  | sweep => exact Phase.next_ne_building _ _ _
  | drop => exact Phase.next_ne_building _ _ _
  | _ => nofun

end Cache

end CriteriaQuery
